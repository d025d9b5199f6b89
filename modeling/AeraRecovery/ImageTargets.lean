import AeraRecovery.Lib.SortedMap
import AeraRecovery.Payload.Extraction

namespace AeraRecovery.ImageTargets

open Lib Bytes List Payload.Extraction

structure Block where
  path : Bytes
  bytes : Nat
  deriving DecidableEq

structure Volume where
  name : Bytes
  path : Bytes
  bytes : Nat
  selected : Bool := false
  slotSelect : Bool := false
  logical : Bool := false
  deriving DecidableEq

def slotA (base : Bytes) : Bytes := base ++ ascii "_a"

def slotB (base : Bytes) : Bytes := base ++ ascii "_b"

def baseName (name : Bytes) : Bytes :=
  if name.length > 2 ∧ (name.drop (name.length - 2) = ascii "_a" ∨ name.drop (name.length - 2) = ascii "_b") then
    name.take (name.length - 2)
  else name

def configuration : List Bytes :=
  ["userdata", "data", "metadata", "cache", "persist", "misc", "frp", "modemst1", "modemst2", "fsc", "fsg", "keystore",
    "devinfo", "config"].map ascii

def Mapped (block : Block) : Prop := ascii "/dm-" <:+: block.path

instance (block : Block) : Decidable (Mapped block) := inferInstanceAs (Decidable (_ <:+: _))

section

variable (represented : Bytes → Bool)

/-- The tests that depend on the name alone. -/
def Refused (name : Bytes) : Prop :=
  baseName name = ascii "super" ∨ baseName name = ascii "super_empty" ∨ ascii "-cow" <:+: name ∨
    baseName name ∈ configuration ∨ ascii "oplusreserve" <+: baseName name ∨ represented (baseName name) = true

instance (name : Bytes) : Decidable (Refused represented name) := inferInstanceAs (Decidable (_ ∨ _))

def pushNew (result : List Volume) (v : Volume) : List Volume :=
  if result.any (·.name = v.name) then result else result ++ [v]

def target (blocks : SortedMap Bytes Block) (entry : Bytes × Block) : Volume :=
  let base := baseName entry.1
  match blocks.find (slotA base), blocks.find (slotB base) with
  | some a, some b => ⟨base, ascii "/block/" ++ base, min a.bytes b.bytes, false, true, false⟩
  | _, _ => ⟨entry.1, ascii "/block/" ++ entry.1, entry.2.bytes, false, false, false⟩

/-- The tests that the loop makes of the entry it visits. -/
def Offered (entry : Bytes × Block) : Prop :=
  ValidName entry.1 ∧ ¬ Refused represented entry.1 ∧ ¬ Mapped entry.2 ∧ entry.2.bytes ≠ 0

instance (entry : Bytes × Block) : Decidable (Offered represented entry) := inferInstanceAs (Decidable (_ ∧ _))

def addTarget (blocks : SortedMap Bytes Block) (result : List Volume) (entry : Bytes × Block) : List Volume :=
  if Offered represented entry then pushNew result (target blocks entry) else result

def physicalTargets (blocks : SortedMap Bytes Block) : List Volume :=
  blocks.entries.foldl (addTarget represented blocks) []

end

def Volume.devices (v : Volume) : List Bytes := if v.slotSelect then [slotA v.name, slotB v.name] else [v.name]

/-- A device that `v` stands for is known, large enough and allowed, and its block meets `P`. -/
def Stands (represented : Bytes → Bool) (blocks : SortedMap Bytes Block) (P : Block → Prop) (v : Volume) : Prop :=
  ∀ device ∈ v.devices, ∃ block, blocks.find device = some block ∧ v.bytes ≤ block.bytes ∧
    ¬ Refused represented device ∧ P block

section

variable (represented : Bytes → Bool) (blocks : SortedMap Bytes Block)

/-- Both slots of `base` are there, in `a` and `b`. -/
def Pair (base : Bytes) (a b : Block) : Prop :=
  blocks.find (slotA base) = some a ∧ blocks.find (slotB base) = some b

/-- A device `name` is offered under its own name: it has no pair of slots. A pair of slots of that name is then not
offered any more. -/
def Single (name : Bytes) : Prop :=
  ∃ block, (name, block) ∈ blocks.entries ∧ Offered represented (name, block) ∧ ∀ a b, ¬ Pair blocks (baseName name) a b

/-- No slot of a pair with an offered member is a node of the mapper. -/
def PairsPhysical : Prop :=
  ∀ entry ∈ blocks.entries, Offered represented entry → ¬ Single represented blocks (baseName entry.1) →
    ∀ a b, Pair blocks (baseName entry.1) a b → ¬ Mapped a ∧ ¬ Mapped b

end

section

variable {represented : Bytes → Bool} {blocks : SortedMap Bytes Block} {base name : Bytes}

theorem baseName_cases (name : Bytes) :
    name = baseName name ∨ name = slotA (baseName name) ∨ name = slotB (baseName name) := by
  unfold baseName slotA slotB
  split_ifs with h
  · rcases h.2 with h | h
    · exact .inr (.inl (by rw [← h, take_append_drop]))
    · exact .inr (.inr (by rw [← h, take_append_drop]))
  · exact .inl rfl

theorem baseName_ne_nil (h : name ≠ []) : baseName name ≠ [] := by
  unfold baseName
  split_ifs with hs
  · exact ne_nil_of_length_pos (by rw [length_take]; omega)
  · exact h

section

variable {suffix : Bytes} (hs : suffix = ascii "_a" ∨ suffix = ascii "_b")

include hs

theorem baseName_slot (h : base ≠ []) : baseName (base ++ suffix) = base := by
  have hlength : suffix.length = 2 := by rcases hs with rfl | rfl <;> rfl
  have hpos := length_pos_of_ne_nil h
  rw [baseName, if_pos] <;> simp [hlength, hs]
  omega

/-- The ends of the slots' names have no byte of `-cow`. -/
theorem cow_slot : ascii "-cow" <:+: base ++ suffix ↔ ascii "-cow" <:+: base := by
  have hend (l : Bytes) (c : UInt8) (hc : c ≠ 119) : ascii "-cow" <:+: l ++ [c] ↔ ascii "-cow" <:+: l := by
    rw [infix_concat_iff]
    refine or_iff_right fun ⟨t, ht⟩ => hc ?_
    have hlast := congrArg getLast? ht
    simpa [ascii] using hlast.symm
  have hbytes : suffix = [95, 97] ∨ suffix = [95, 98] := hs
  rcases hbytes with rfl | rfl <;> rw [append_cons, hend _ _ (by decide), hend _ _ (by decide)]

theorem cow_baseName (hn : name = baseName name ++ suffix) :
    ascii "-cow" <:+: baseName name ↔ ascii "-cow" <:+: name := by
  rw [← cow_slot hs, ← hn]

theorem refused_slot (hname : name ≠ []) (h : ¬ Refused represented name) :
    ¬ Refused represented (baseName name ++ suffix) := by
  have hcow : ascii "-cow" <:+: baseName name ↔ ascii "-cow" <:+: name := by
    rcases baseName_cases name with hn | hn | hn
    · rw [← hn]
    · exact cow_baseName (.inl rfl) hn
    · exact cow_baseName (.inr rfl) hn
  rwa [Refused, baseName_slot hs (baseName_ne_nil hname), cow_slot hs, hcow]

end

variable {result : List Volume} {v : Volume} {entry : Bytes × Block}

theorem nodup_pushNew (h : (result.map Volume.name).Nodup) (v : Volume) :
    ((pushNew result v).map Volume.name).Nodup := by
  unfold pushNew
  split_ifs with hany
  · exact h
  · rw [map_append]
    refine Checks.nodup_concat h fun hmem => hany ?_
    simpa using hmem

theorem mem_pushNew {w : Volume} (h : w ∈ pushNew result v) : w ∈ result ∨ w = v := by
  unfold pushNew at h
  split_ifs at h
  · exact .inl h
  · simpa using h

theorem mem_pushNew_self (h : v.name ∉ result.map Volume.name) : v ∈ pushNew result v := by
  rw [pushNew, if_neg]
  · simp
  · simpa using h

theorem name_mem_pushNew (result : List Volume) (v : Volume) : v.name ∈ (pushNew result v).map Volume.name := by
  by_cases h : v.name ∈ result.map Volume.name
  · rw [pushNew, if_pos (by simpa using h)]
    exact h
  · exact mem_map_of_mem (mem_pushNew_self h)

theorem subset_addTarget : result ⊆ addTarget represented blocks result entry := by
  unfold addTarget pushNew
  split_ifs
  · exact Subset.refl _
  · exact subset_append_left _ _
  · exact Subset.refl _

theorem subset_foldl (entries : List (Bytes × Block)) : result ⊆ entries.foldl (addTarget represented blocks) result := by
  induction entries generalizing result with
  | nil => exact Subset.refl _
  | cons entry entries ih => exact Subset.trans subset_addTarget ih

theorem nodup_foldl (entries : List (Bytes × Block)) :
    ((entries.foldl (addTarget represented blocks) []).map Volume.name).Nodup := by
  refine foldlRecOn (motive := fun l => (map Volume.name l).Nodup) _ _ nodup_nil fun result h entry _ => ?_
  unfold addTarget
  split_ifs
  · exact nodup_pushNew h _
  · exact h

/-- A target comes from an entry that is offered. -/
theorem mem_foldl {entries : List (Bytes × Block)} (h : v ∈ entries.foldl (addTarget represented blocks) []) :
    ∃ entry ∈ entries, Offered represented entry ∧ v = target blocks entry := by
  refine foldlRecOn (motive := fun l => ∀ v ∈ l, ∃ entry ∈ entries, Offered represented entry ∧ v = target blocks entry)
    entries _ (forall_mem_nil _) (fun result h entry hentry v hv => ?_) v h
  unfold addTarget at hv
  split_ifs at hv with hoffered
  · rcases mem_pushNew hv with hv | rfl
    · exact h v hv
    · exact ⟨entry, hentry, hoffered, rfl⟩
  · exact h v hv

theorem target_cases (blocks : SortedMap Bytes Block) (entry : Bytes × Block) :
    (∃ a b, Pair blocks (baseName entry.1) a b ∧ target blocks entry =
      ⟨baseName entry.1, ascii "/block/" ++ baseName entry.1, min a.bytes b.bytes, false, true, false⟩) ∨
    ((∀ a b, ¬ Pair blocks (baseName entry.1) a b) ∧ target blocks entry =
      ⟨entry.1, ascii "/block/" ++ entry.1, entry.2.bytes, false, false, false⟩) := by
  unfold target
  dsimp only
  split
  · rename_i a b ha hb
    exact .inl ⟨a, b, ⟨ha, hb⟩, rfl⟩
  · rename_i hnone
    exact .inr ⟨fun a b hpair => hnone a b hpair.1 hpair.2, rfl⟩

theorem baseName_le (name : Bytes) : baseName name ≤ name := by
  have h := baseName_cases name
  generalize baseName name = base at h ⊢
  rcases h with rfl | rfl | rfl
  · exact List.le_refl _
  · exact le_append_left
  · exact le_append_left

theorem le_of_target_name (h : (target blocks entry).name = name) : name ≤ entry.1 := by
  rcases target_cases blocks entry with ⟨a, b, -, htarget⟩ | ⟨-, htarget⟩ <;> rw [htarget] at h <;> dsimp only at h
  · exact h ▸ baseName_le _
  · exact h ▸ List.le_refl _

/-- The entry of the shorter name is visited before the slots. -/
theorem single_mem (h : Single represented blocks name) :
    ∃ v ∈ physicalTargets represented blocks, v.name = name ∧ v.slotSelect = false := by
  obtain ⟨block, hentry, hoffered, hpair⟩ := h
  have hsorted := blocks.sorted
  obtain ⟨before, after, hsplit⟩ := append_of_mem hentry
  rw [hsplit, pairwise_append] at hsorted
  have htarget : target blocks (name, block) = ⟨name, ascii "/block/" ++ name, block.bytes, false, false, false⟩ := by
    rcases target_cases blocks (name, block) with ⟨a, b, hab, -⟩ | ⟨-, htarget⟩
    · exact absurd hab (hpair a b)
    · exact htarget
  have hnew : name ∉ (before.foldl (addTarget represented blocks) []).map Volume.name := by
    intro hmem
    obtain ⟨v, hv, hname⟩ := mem_map.mp hmem
    obtain ⟨entry, hbefore, -, rfl⟩ := mem_foldl hv
    exact le_of_target_name hname (hsorted.2.2 entry hbefore _ mem_cons_self)
  refine ⟨target blocks (name, block), ?_, by rw [htarget], by rw [htarget]⟩
  rw [physicalTargets, hsplit, foldl_append, foldl_cons]
  refine subset_foldl after ?_
  rw [addTarget, if_pos hoffered]
  exact mem_pushNew_self (by rwa [htarget])

theorem name_mem (hentry : entry ∈ blocks.entries) (hoffered : Offered represented entry) :
    ∃ v ∈ physicalTargets represented blocks, v.name = (target blocks entry).name := by
  obtain ⟨before, after, hsplit⟩ := append_of_mem hentry
  have hmem := name_mem_pushNew (before.foldl (addTarget represented blocks) []) (target blocks entry)
  obtain ⟨v, hv, hname⟩ := mem_map.mp hmem
  refine ⟨v, ?_, hname⟩
  rw [physicalTargets, hsplit, foldl_append, foldl_cons]
  refine subset_foldl after ?_
  rwa [addTarget, if_pos hoffered]

theorem pairsPhysical_of_stands
    (h : ∀ v ∈ physicalTargets represented blocks, Stands represented blocks (¬ Mapped ·) v) :
    PairsPhysical represented blocks := by
  intro entry hentry hoffered hsingle a b hpair
  obtain ⟨v, hv, hname⟩ := name_mem hentry hoffered
  have hstands := h v hv
  obtain ⟨e, he, hoffered', rfl⟩ := mem_foldl hv
  rcases target_cases blocks entry with ⟨_, _, -, htarget⟩ | ⟨hnone, -⟩
  · rw [htarget] at hname
    -- the target of that name is the pair, since no single device has taken the name before
    rcases target_cases blocks e with ⟨_, _, -, htarget'⟩ | ⟨hnone, htarget'⟩
    all_goals
      rw [htarget'] at hname hstands
      dsimp only at hname
    · rw [hname] at hstands
      obtain ⟨a', ha, -, -, hmapped⟩ := hstands (slotA (baseName entry.1)) mem_cons_self
      obtain ⟨b', hb, -, -, hmapped'⟩ := hstands (slotB (baseName entry.1)) (mem_cons_of_mem _ mem_cons_self)
      rw [Option.some.inj (hpair.1.symm.trans ha), Option.some.inj (hpair.2.symm.trans hb)]
      exact ⟨hmapped, hmapped'⟩
    · rw [← hname] at hsingle
      exact absurd ⟨e.2, he, hoffered', hnone⟩ hsingle
  · exact absurd hpair (hnone a b)

theorem stands_of_pairsPhysical (h : PairsPhysical represented blocks) :
    ∀ v ∈ physicalTargets represented blocks, Stands represented blocks (¬ Mapped ·) v := by
  intro v hv
  obtain ⟨entry, hentry, hoffered, rfl⟩ := mem_foldl hv
  obtain ⟨hvalid, hallowed, hmapped, -⟩ := id hoffered
  have hne : entry.1 ≠ [] := fun heq => hvalid (.inl heq)
  rcases target_cases blocks entry with ⟨a, b, hpair, htarget⟩ | ⟨-, htarget⟩
  · have hsingle : ¬ Single represented blocks (baseName entry.1) := by
      intro hsingle
      obtain ⟨w, hw, hname, hslot⟩ := single_mem hsingle
      have heq := inj_on_of_nodup_map (nodup_foldl _) hw hv (by rw [hname, htarget])
      rw [heq, htarget] at hslot
      exact Bool.noConfusion hslot
    obtain ⟨ha, hb⟩ := h entry hentry hoffered hsingle a b hpair
    rw [htarget]
    intro device hdevice
    rcases mem_cons.mp hdevice with rfl | hdevice
    · exact ⟨a, hpair.1, min_le_left _ _, refused_slot (.inl rfl) hne hallowed, ha⟩
    · rw [mem_singleton.mp hdevice]
      exact ⟨b, hpair.2, min_le_right _ _, refused_slot (.inr rfl) hne hallowed, hb⟩
  · rw [htarget]
    intro device hdevice
    rw [mem_singleton.mp hdevice]
    exact ⟨entry.2, blocks.find_of_mem hentry, le_refl _, hallowed, hmapped⟩

/-- The targets have distinct names. Each can be flashed if and only if no slot of an offered pair is a node of the
mapper. -/
theorem physicalTargets_flashable_iff (represented : Bytes → Bool) (blocks : SortedMap Bytes Block) :
    ((physicalTargets represented blocks).map Volume.name).Nodup ∧
      ((∀ v ∈ physicalTargets represented blocks, Stands represented blocks (¬ Mapped ·) v) ↔
        PairsPhysical represented blocks) :=
  ⟨nodup_foldl _, pairsPhysical_of_stands, stands_of_pairsPhysical⟩

end

def mappedSlot : SortedMap Bytes Block :=
  ⟨[(ascii "boot_a", ⟨ascii "/dev/block/sda1", 1⟩), (ascii "boot_b", ⟨ascii "/dev/block/dm-1", 1⟩)], by decide⟩

theorem mapped_slot_named : ∃ v ∈ physicalTargets (fun _ => false) mappedSlot, ascii "boot_b" ∈ v.devices ∧
    mappedSlot.find (ascii "boot_b") = some ⟨ascii "/dev/block/dm-1", 1⟩ ∧ Mapped ⟨ascii "/dev/block/dm-1", 1⟩ :=
  ⟨⟨ascii "boot", ascii "/block/boot", 1, false, true, false⟩, by decide +kernel⟩

end AeraRecovery.ImageTargets
