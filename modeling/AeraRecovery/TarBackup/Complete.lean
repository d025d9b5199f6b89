import AeraRecovery.TarBackup.Fork

namespace AeraRecovery.TarBackup

open Lib Bytes Division Listing List Nat

variable (list : List TarItem)

def fileSizes : List Nat :=
  list.filterMap fun i => match i.kind with
    | .reg size => some size
    | _ => none

def ofThread (t : Nat) : List TarItem := list.filter fun i => i.threadId = t

def needed (part : List TarItem) (s : Archiving) : Nat :=
  s.archiveCount + splits maxArchiveSize s.archiveCurrentSize (fileSizes part)

inductive Ends (splitArchives : Bool) (part : List TarItem) (s : Archiving) (r : Int × Archiving) : Prop
  | done (hfits : splitArchives = true → needed part s ≤ maxArchiveCount) (hcode : r.1 = 0)
      (hadded : r.2.added.map Prod.snd = s.added.map Prod.snd ++ part.map fun i => i.fn)
  | stopped (hsplit : splitArchives = true) (hexceeds : maxArchiveCount < needed part s) (hcode : r.1 ≠ 0)
      (hadded : r.2.added.length < s.added.length + part.length)

theorem Ends.cons {splitArchives : Bool} {i : TarItem} {part : List TarItem} {s s' : Archiving} {r : Int × Archiving}
    (h : Ends splitArchives part s' r) {n : Nat} (hadd : s'.added = s.added ++ [(n, i.fn)])
    (hneeded : splitArchives = true → needed (i :: part) s = needed part s') :
    Ends splitArchives (i :: part) s r := by
  cases h with
  | done hfits hcode hadded =>
    refine .done (fun hsplit => hneeded hsplit ▸ hfits hsplit) hcode ?_
    rw [hadded, hadd, map_append, append_assoc]
    rfl
  | stopped hsplit hexceeds hcode hadded =>
    refine .stopped hsplit (hneeded hsplit ▸ hexceeds) hcode ?_
    rw [hadd, length_append, length_singleton] at hadded
    rw [length_cons]
    omega

theorem tarLoop_ends (splitArchives : Bool) (t : Nat) (list : List TarItem) {s : Archiving}
    (hs : s.archiveCount ≤ maxArchiveCount) :
    Ends splitArchives (ofThread list t) s (tarLoop splitArchives t list s) := by
  induction list generalizing s with
  | nil => exact .done (fun _ => hs) rfl (append_nil _).symm
  | cons i list ih =>
    by_cases hthread : i.threadId = t
    · have hpart : ofThread (i :: list) t = i :: ofThread list t := filter_cons_of_pos (decide_eq_true hthread)
      rw [tarLoop, if_neg (not_not.mpr hthread), hpart]
      cases hkind : i.kind with
      | dir | lnk =>
        have hsizes : fileSizes (i :: ofThread list t) = fileSizes (ofThread list t) := by simp [fileSizes, hkind]
        exact (ih (s := s.addFile i.fn) hs).cons rfl fun _ => by rw [needed, hsizes]; rfl
      | reg fs =>
        have hsizes : fileSizes (i :: ofThread list t) = fs :: fileSizes (ofThread list t) := by
          simp [fileSizes, hkind]
        dsimp only
        by_cases hover : splitArchives = true ∧ s.archiveCurrentSize + fs > maxArchiveSize
        · have hneeded : needed (i :: ofThread list t) s =
              s.archiveCount + 1 + splits maxArchiveSize fs (fileSizes (ofThread list t)) := by
            rw [needed, hsizes, splits, if_pos hover.2, add_assoc]
          rw [if_pos hover]
          by_cases hmany : s.archiveCount + 1 > maxArchiveCount
          · rw [if_pos hmany]
            refine .stopped hover.1 ?_ (show (-4 : Int) ≠ 0 by decide) (Nat.lt_add_of_pos_right (Nat.succ_pos _))
            omega
          · rw [if_neg hmany]
            exact (ih (s := Archiving.addFile ⟨s.archiveCount + 1, fs, s.added⟩ i.fn) (Nat.le_of_not_lt hmany)).cons
              rfl fun _ => hneeded
        · rw [if_neg hover]
          refine (ih (s := Archiving.addFile ⟨s.archiveCount, s.archiveCurrentSize + fs, s.added⟩ i.fn) hs).cons rfl
            fun hsplit => ?_
          rw [needed, hsizes, splits, if_neg fun h => hover ⟨hsplit, h⟩]
          rfl
    · have hpart : ofThread (i :: list) t = ofThread list t := filter_cons_of_neg (by simpa using hthread)
      rw [tarLoop, if_pos hthread, hpart]
      exact ih hs

def Stage.Fits (s : Stage) : Prop :=
  s.splitArchives = true → ∀ t ∈ s.threads, splits maxArchiveSize 0 (fileSizes (ofThread s.list t)) ≤ maxArchiveCount

structure Stage.Divided (s : Stage) : Prop where
  nodup : s.threads.Nodup
  mem : ∀ i ∈ s.list, i.threadId ∈ s.threads

def paths : List Bytes := list.map fun i => i.fn

/-- Either everything fits and all of it is added, or something is left out. -/
def Adds (fits : Prop) (all : List Bytes) (o : Outcome) : Prop :=
  (fits ∧ o.ok = true ∧ o.added.Perm all) ∨ (¬ fits ∧ o.ok = false ∧ o.added.length < all.length)

theorem Stage.Divided.run_adds {s : Stage} (h : s.Divided) : Adds s.Fits (paths s.list) s.run := by
  have hends : ∀ t, Ends s.splitArchives (ofThread s.list t) {} (tarList s.list s.splitArchives t) :=
    fun t => tarLoop_ends s.splitArchives t s.list (zero_le _)
  have hneeded : ∀ t, needed (ofThread s.list t) {} = splits maxArchiveSize 0 (fileSizes (ofThread s.list t)) :=
    fun t => zero_add _
  have hparts : (s.threads.flatMap fun t => ofThread s.list t).Perm s.list :=
    flatMap_filter_perm h.nodup (fun i : TarItem => i.threadId) h.mem
  by_cases hfits : s.Fits
  · have hdone : ∀ t ∈ s.threads, (tarList s.list s.splitArchives t).1 = 0 ∧
        (tarList s.list s.splitArchives t).2.added.map Prod.snd = paths (ofThread s.list t) := by
      intro t ht
      cases hends t with
      | done _ hcode hadded => exact ⟨hcode, hadded⟩
      | stopped hsplit hexceeds =>
        rw [hneeded] at hexceeds
        exact absurd (hfits hsplit t ht) (Nat.not_le_of_lt hexceeds)
    refine .inl ⟨hfits, all_eq_true.mpr fun t ht => decide_eq_true (hdone t ht).1, ?_⟩
    rw [Stage.run, flatMap_congr fun t ht => (hdone t ht).2]
    have hmap := hparts.map fun i => i.fn
    rwa [map_flatMap] at hmap
  · have hexceeded : ∃ t ∈ s.threads, s.splitArchives = true ∧ maxArchiveCount < needed (ofThread s.list t) {} := by
      rw [Stage.Fits] at hfits
      push Not at hfits
      obtain ⟨hsplit, t, ht, hexceeds⟩ := hfits
      exact ⟨t, ht, hsplit, by rwa [hneeded]⟩
    obtain ⟨t, ht, hsplit, hexceeds⟩ := hexceeded
    have hlength : (s.threads.map fun t => (ofThread s.list t).length).sum = s.list.length := by
      rw [← hparts.length_eq, length_flatMap]
    have hle : ∀ t ∈ s.threads, (tarList s.list s.splitArchives t).2.added.length ≤ (ofThread s.list t).length := by
      intro t _
      cases hends t with
      | done _ _ hadded =>
        have := congrArg List.length hadded
        rw [length_map, length_append, length_map, length_map, length_nil, zero_add] at this
        exact this.le
      | stopped _ _ _ hadded =>
        rw [length_nil, zero_add] at hadded
        exact hadded.le
    cases hends t with
    | done hfits' => exact absurd (hfits' hsplit) (Nat.not_le_of_lt hexceeds)
    | stopped _ _ hcode hadded =>
      rw [length_nil, zero_add] at hadded
      refine .inr ⟨hfits, ?_, ?_⟩
      · rw [Stage.run, all_eq_false]
        exact ⟨t, ht, by simpa using hcode⟩
      · rw [Stage.run, length_flatMap, paths, length_map, ← hlength]
        simp only [length_map]
        exact sum_lt_sum _ _ hle ⟨t, ht, hadded⟩

theorem runStages_adds {stages : List Stage} (h : ∀ s ∈ stages, s.Divided) :
    Adds (∀ s ∈ stages, s.Fits) (paths (stages.flatMap Stage.list)) (runStages stages) := by
  induction stages with
  | nil => exact .inl ⟨fun _ hs => absurd hs not_mem_nil, rfl, .nil⟩
  | cons s stages ih =>
    obtain ⟨hs, hrest⟩ := forall_mem_cons.mp h
    have hpaths : paths ((s :: stages).flatMap Stage.list) = paths s.list ++ paths (stages.flatMap Stage.list) := by
      rw [flatMap_cons, paths, map_append]
      rfl
    rw [runStages, hpaths]
    rcases hs.run_adds with ⟨hfits, hok, hperm⟩ | ⟨hfits, hok, hlength⟩
    · rw [if_pos hok]
      rcases ih hrest with ⟨hfits', hok', hperm'⟩ | ⟨hfits', hok', hlength'⟩
      · exact .inl ⟨forall_mem_cons.mpr ⟨hfits, hfits'⟩, hok', hperm.append hperm'⟩
      · refine .inr ⟨fun hall => hfits' (forall_mem_cons.mp hall).2, hok', ?_⟩
        rw [length_append, length_append, hperm.length_eq]
        omega
    · rw [if_neg (by rw [hok]; decide)]
      refine .inr ⟨fun hall => hfits (forall_mem_cons.mp hall).1, hok, ?_⟩
      rw [length_append]
      omega

namespace Backup

variable (b : Backup)

def topDirectories : Listing → List Item
  | .nil => []
  | .file _ _ _ rest => topDirectories rest
  | .directory name identity _ rest =>
    (if b.exclusions.checkSkipDirs (join b.tardir name) (some identity) then [] else [⟨join b.tardir name, .dir⟩]) ++
      topDirectories rest

def regularItems : Listing → List Item
  | .nil => []
  | .file _ _ _ rest => regularItems rest
  | .directory name identity contents rest =>
    (if b.exclusions.checkSkipDirs (join b.tardir name) (some identity) then []
      else if b.apart name then items b.exclusions (join b.tardir name) contents else []) ++ regularItems rest

def encryptItems : Listing → List Item
  | .nil => []
  | .file name type size rest =>
    (if b.exclusions.checkSkipDirs (join b.tardir name) none then [] else type.item (join b.tardir name) size) ++
      encryptItems rest
  | .directory name identity contents rest =>
    (if b.exclusions.checkSkipDirs (join b.tardir name) (some identity) then []
      else if b.apart name then [] else items b.exclusions (join b.tardir name) contents) ++ encryptItems rest

theorem items_perm (l : Listing) :
    (items b.exclusions b.tardir l).Perm (b.topDirectories l ++ (b.regularItems l ++ b.encryptItems l)) := by
  induction l with
  | nil => exact .nil
  | file name type size rest ih =>
    rw [perm_iff_count]
    intro i
    have hcount := ih.count_eq i
    simp only [items, topDirectories, regularItems, encryptItems, count_append] at hcount ⊢
    omega
  | directory name identity contents rest _ ih =>
    rw [perm_iff_count]
    intro i
    have hcount := ih.count_eq i
    simp only [items, topDirectories, regularItems, encryptItems, count_append] at hcount ⊢
    split_ifs <;> simp only [count_cons, count_nil] <;> omega

theorem firstLoop_fst (l : Listing) (s : Walk × Nat) : (b.firstLoop l s).1 = (b.regularItems l).foldl (push 0) s.1 := by
  induction l generalizing s with
  | nil => rfl
  | file name type size rest ih =>
    rw [firstLoop, regularItems]
    split_ifs <;> exact ih _
  | directory name identity contents rest _ ih =>
    rw [firstLoop, regularItems, foldl_append]
    split_ifs
    · exact ih _
    · rw [ih, generateTarList_eq_foldl]
    · exact ih _

theorem firstLoop_snd (l : Listing) (s : Walk × Nat) : s.2 + sizes (b.encryptItems l) ≤ (b.firstLoop l s).2 := by
  induction l generalizing s with
  | nil => exact le_rfl
  | file name type size rest ih =>
    rw [firstLoop, encryptItems]
    cases hskip : b.exclusions.checkSkipDirs (join b.tardir name) none with
    | true =>
      rw [if_pos rfl, if_pos (.inr (.inr rfl)), nil_append]
      exact ih s
    | false =>
      rw [if_neg Bool.false_ne_true]
      cases type with
      | reg =>
        rw [if_neg (by decide), if_pos rfl, sizes_append, ← add_assoc]
        exact ih (s.1, s.2 + size)
      | lnk =>
        rw [if_neg (by decide), if_neg (by decide), sizes_append, ← add_assoc]
        exact ih s
      | fifo | sock =>
        exact ih s
      | blk | chr =>
        exact ih s
  | directory name identity contents rest _ ih =>
    rw [firstLoop, encryptItems]
    split_ifs
    · exact ih s
    · exact ih (generateTarList b.exclusions 0 (join b.tardir name) contents s.1, s.2)
    · have hsize := sizes_items_le b.exclusions (join b.tardir name) contents
      have hrest := ih (s.1, s.2 + getFolderSize b.exclusions (join b.tardir name) contents)
      rw [sizes_append]
      omega

structure Encrypting (target start : Nat) (done : List Item) (s : Walk) : Prop where
  list : s.list.map TarItem.toItem = done
  weight : s.counter.weight target ≤ start * (target + 1) + sizes done
  numbered : Numbered start s

variable {target start : Nat} {done : List Item}

theorem Encrypting.walk {s : Walk} (h : Encrypting target start done s)
    (is : List Item) : Encrypting target start (done ++ is) (is.foldl (push target) s) := by
  refine ⟨by rw [foldl_push_list, h.list], ?_, numbered_foldl_push h.numbered is⟩
  have hwalk := weight_foldl_push target is s
  have hbefore := h.weight
  rw [sizes_append]
  omega

theorem Encrypting.file {s : Walk} (h : Encrypting target start done s)
    (i : Item) : Encrypting target start (done ++ [i])
      ⟨s.list ++ [⟨i, s.counter.group⟩], ⟨s.counter.current + i.kind.size, s.counter.group⟩⟩ := by
  refine ⟨by rw [map_append, h.list]; rfl, ?_, h.numbered.add i (le_rfl)⟩
  have hbefore := h.weight
  have hone : sizes [i] = i.kind.size := add_zero _
  rw [sizes_append, hone]
  simp only [Counter.weight] at hbefore ⊢
  omega

theorem secondLoop_induction {P : List Item → Walk → Prop}
    (hwalk : ∀ {done s}, P done s → ∀ is, P (done ++ is) (is.foldl (push target) s))
    (hfile : ∀ {done s}, P done s → ∀ i, P (done ++ [i])
      ⟨s.list ++ [⟨i, s.counter.group⟩], ⟨s.counter.current + i.kind.size, s.counter.group⟩⟩)
    (l : Listing) {s : Walk} (h : P done s) : P (done ++ b.encryptItems l) (b.secondLoop target l s) := by
  induction l generalizing done s with
  | nil => rwa [encryptItems, append_nil]
  | file name type size rest ih =>
    cases hskip : b.exclusions.checkSkipDirs (join b.tardir name) none with
    | true => cases type <;> simpa [secondLoop, encryptItems, hskip] using ih h
    | false =>
      cases type with
      | reg =>
        simpa [secondLoop, encryptItems, hskip, FileType.item, Kind.size] using
          ih (hfile h ⟨join b.tardir name, .reg size⟩)
      | lnk =>
        simpa [secondLoop, encryptItems, hskip, FileType.item, Kind.size] using
          ih (hfile h ⟨join b.tardir name, .lnk⟩)
      | blk | chr | fifo | sock => simpa [secondLoop, encryptItems, hskip, FileType.item] using ih h
  | directory name identity contents rest _ ih =>
    rw [secondLoop, encryptItems, ← append_assoc]
    split_ifs
    · rw [append_nil]
      exact ih h
    · rw [append_nil]
      exact ih h
    · rw [generateTarList_eq_foldl]
      exact ih (hwalk h _)

theorem coreCount_pos : 0 < b.coreCount := by
  have := b.cores_pos
  rw [coreCount]
  split_ifs <;> omega

theorem encrypted_encrypting : Encrypting b.targetSize b.startThread (b.encryptItems b.tree.listing) b.encrypted := by
  have hstart : Encrypting b.targetSize b.startThread [] ⟨[], ⟨0, b.startThread⟩⟩ :=
    ⟨rfl, le_rfl, fun _ h => absurd h not_mem_nil, le_rfl⟩
  exact b.secondLoop_induction Encrypting.walk Encrypting.file _ hstart

theorem encrypted_group_le : b.encrypted.counter.group ≤ b.lastThread := by
  have h := b.encrypted_encrypting
  have hsize : sizes (b.encryptItems b.tree.listing) ≤ b.regular.2 := by
    have := b.firstLoop_snd b.tree.listing (⟨[], ⟨0, 0⟩⟩, 0)
    rwa [zero_add] at this
  have hweight := h.weight
  have hfirst := h.numbered.first
  obtain ⟨extra, hextra⟩ := Nat.exists_eq_add_of_le hfirst
  rw [Counter.weight, hextra, add_mul] at hweight
  have hshare : extra * (b.regular.2 / b.coreCount + 1 + 1) ≤ b.regular.2 := by
    rw [targetSize] at hweight
    omega
  have hbound := lt_of_mul_share_le b.coreCount_pos hshare
  rw [hextra, startThread, lastThread]
  split_ifs <;> omega

theorem encrypted_divided (split : Bool) : Stage.Divided ⟨b.encrypted.list, b.threads, split⟩ := by
  refine ⟨nodup_range', fun i hi => ?_⟩
  have hi' := b.encrypted_encrypting.numbered.items i hi
  have hle := b.encrypted_group_le
  simp only [threads, mem_range'_1]
  omega

/-- How many bytes of regular files a thread has to archive. -/
def held (list : List TarItem) (t : Nat) : Nat := sizes ((ofThread list t).map TarItem.toItem)

theorem held_add (list : List TarItem) (i : TarItem) (t : Nat) :
    held (list ++ [i]) t = held list t + if i.threadId = t then i.kind.size else 0 := by
  rw [held, ofThread, filter_append, map_append, sizes_append]
  split_ifs with h <;> simp [h, held, ofThread, sizes]

structure Shares (target start : Nat) (s : Walk) : Prop where
  closed : ∀ t, start ≤ t → t < s.counter.group → target < held s.list t
  current : held s.list s.counter.group = s.counter.current
  later : ∀ t, s.counter.group < t → held s.list t = 0

section

variable {s : Walk} (h : Shares target start s)

include h

theorem Shares.stay (i : Item) :
    Shares target start ⟨s.list ++ [⟨i, s.counter.group⟩], ⟨s.counter.current + i.kind.size, s.counter.group⟩⟩ := by
  refine ⟨fun t hstart ht => ?_, ?_, fun t ht => ?_⟩
  · exact (h.closed t hstart ht).trans_le (held_add .. ▸ Nat.le_add_right ..)
  · rw [held_add, if_pos rfl, h.current]
  · rw [held_add, if_neg ht.ne, h.later t ht]

theorem Shares.next (hfull : target < s.counter.current) :
    Shares target start ⟨s.list, ⟨0, s.counter.group + 1⟩⟩ := by
  refine ⟨fun t hstart ht => ?_, h.later _ (lt_succ_self _), fun t ht => h.later t (lt_of_succ_lt ht)⟩
  rcases Nat.lt_succ_iff_lt_or_eq.mp ht with ht | rfl
  · exact h.closed t hstart ht
  · rwa [h.current]

theorem Shares.push (i : Item) : Shares target start (push target s i) := by
  have hstay := h.stay i
  rw [TarBackup.push, advance]
  split_ifs with hdir hfull
  · rwa [hdir] at hstay
  · exact hstay.next hfull.2.2
  · exact hstay

end

theorem encrypted_shares : Shares b.targetSize b.startThread b.encrypted := by
  have hstart : Shares b.targetSize b.startThread ⟨[], ⟨0, b.startThread⟩⟩ :=
    ⟨fun t h hlt => absurd hlt h.not_gt, rfl, fun _ _ => rfl⟩
  refine @secondLoop_induction b _ [] (fun _ => Shares b.targetSize b.startThread) ?_ Shares.stay _ _ hstart
  intro _ s h is
  exact is.foldlRecOn (push b.targetSize) h fun _ h i _ => h.push i

/-- The division of an encrypted backup stays within the threads that are started. A thread holds more than the
target size, or those after it have nothing to do. -/
theorem encrypted_threads (b : Backup) : b.encrypted.counter.group ≤ b.lastThread ∧
    (∀ i ∈ b.encrypted.list, i.threadId ∈ b.threads) ∧ ∀ t ∈ b.threads,
      b.targetSize < held b.encrypted.list t ∨ ∀ i ∈ b.encrypted.list, i.threadId ≤ t := by
  refine ⟨b.encrypted_group_le, (b.encrypted_divided true).mem, fun t ht => ?_⟩
  rcases lt_or_ge t b.encrypted.counter.group with hlt | hge
  · exact .inl (b.encrypted_shares.closed t (mem_range'_1.mp ht).1 hlt)
  · exact .inr fun i hi => (b.encrypted_encrypting.numbered.items i hi).2.trans hge

theorem regular_list : b.regular.1.list.map TarItem.toItem = b.regularItems b.tree.listing := by
  rw [regular, firstLoop_fst, foldl_push_list]
  rfl

theorem divided_of_foldl {is : List Item} (split : Bool) :
    Stage.Divided ⟨(is.foldl (push 0) ⟨[], ⟨0, 0⟩⟩).list, [0], split⟩ := by
  refine ⟨nodup_singleton 0, fun i hi => ?_⟩
  have hnumbered : Numbered 0 (is.foldl (push 0) ⟨[], ⟨0, 0⟩⟩) :=
    numbered_foldl_push ⟨fun _ h => absurd h not_mem_nil, zero_le _⟩ is
  have hle := (hnumbered.items i hi).2
  rw [foldl_push_zero] at hle
  exact mem_singleton.mpr (le_zero.mp hle)

theorem stages_divided : ∀ s ∈ b.stages, s.Divided := by
  rw [stages]
  cases b.encryption with
  | none =>
    rw [generateTarList_eq_foldl]
    exact forall_mem_singleton.mpr (divided_of_foldl _)
  | all => exact forall_mem_singleton.mpr (b.encrypted_divided true)
  | userdata =>
    refine forall_mem_cons.mpr ⟨?_, forall_mem_singleton.mpr (b.encrypted_divided true)⟩
    rw [regular, firstLoop_fst]
    exact divided_of_foldl true

theorem regularItems_eq_nil (h : b.encryption ≠ .userdata) (l : Listing) : b.regularItems l = [] := by
  have hapart : ∀ name, b.apart name = false := fun name => decide_eq_false fun hand => h hand.1
  induction l with
  | nil => rfl
  | file name type size rest ih => exact ih
  | directory name identity contents rest _ ih =>
    rw [regularItems, ih, hapart, if_neg Bool.false_ne_true, ite_self]
    rfl

def missed : List Item := if b.encryption = .none then [] else b.topDirectories b.tree.listing

theorem paths_eq_map_fn {list : List TarItem} {is : List Item} (h : list.map TarItem.toItem = is) :
    paths list = is.map Item.fn := by
  rw [← h, map_map]
  rfl

theorem items_perm_stages : ((items b.exclusions b.tardir b.tree.listing).map Item.fn).Perm
    (b.missed.map Item.fn ++ paths (b.stages.flatMap Stage.list)) := by
  have hsplit := (b.items_perm b.tree.listing).map Item.fn
  rw [map_append, map_append] at hsplit
  have hencrypted := paths_eq_map_fn b.encrypted_encrypting.list
  cases hmode : b.encryption with
  | none =>
    have hlist : (generateTarList b.exclusions 0 b.tardir b.tree.listing ⟨[], ⟨0, 0⟩⟩).list.map TarItem.toItem =
        items b.exclusions b.tardir b.tree.listing := by
      rw [generateTarList_eq_foldl, foldl_push_list]
      rfl
    rw [missed, stages, hmode, if_pos rfl]
    simp only [flatMap_cons, flatMap_nil, append_nil, paths_eq_map_fn hlist]
    exact .rfl
  | all =>
    rw [regularItems_eq_nil b (by rw [hmode]; decide)] at hsplit
    rw [missed, stages, hmode, if_neg (by decide)]
    simp only [flatMap_cons, flatMap_nil, append_nil, hencrypted]
    exact hsplit
  | userdata =>
    have hregular := paths_eq_map_fn b.regular_list
    rw [missed, stages, hmode, if_neg (by decide)]
    simp only [flatMap_cons, flatMap_nil, append_nil]
    rw [paths, map_append, ← paths, ← paths, hregular, hencrypted]
    exact hsplit

/-- A backup holds each directory, regular file and symbolic link that is not excluded once, and nothing else. -/
def Complete (added : List Bytes) : Prop :=
  added.Nodup ∧ ∀ p, p ∈ added ↔ Below b.exclusions b.tardir b.tree.listing p

theorem complete_iff_perm {added : List Bytes} :
    b.Complete added ↔ added.Perm ((items b.exclusions b.tardir b.tree.listing).map Item.fn) := by
  have hnodup : ((items b.exclusions b.tardir b.tree.listing).map Item.fn).Nodup := nodup_items b.tree.wellFormed
  have hmem : ∀ p, p ∈ (items b.exclusions b.tardir b.tree.listing).map Item.fn ↔
      Below b.exclusions b.tardir b.tree.listing p := fun p => by
    rw [mem_map, mem_items_iff b.tree.wellFormed]
  constructor
  · rintro ⟨hadded, hbelow⟩
    exact (perm_ext_iff_of_nodup hadded hnodup).mpr fun p => (hbelow p).trans (hmem p).symm
  · intro hperm
    exact ⟨hperm.nodup_iff.mpr hnodup, fun p => hperm.mem_iff.trans (hmem p)⟩

theorem topDirectories_eq_nil_iff {l : Listing} (hl : l.WellFormed) :
    b.topDirectories l = [] ↔ ∀ name identity contents, (name, Entry.directory identity contents) ∈ l.entries →
      b.exclusions.Excluded b.tardir name (some identity) := by
  induction l with
  | nil => exact iff_of_true rfl fun _ _ _ h => absurd h not_mem_nil
  | file name type size rest ih =>
    rw [topDirectories, ih hl.2.2]
    simp [Listing.entries]
  | directory name identity contents rest _ ih =>
    have hskip := checkSkipDirs_iff b.exclusions b.tardir (some identity) hl.1
    rw [topDirectories, append_eq_nil_iff, ih hl.2.2.2]
    have hhere : (if b.exclusions.checkSkipDirs (join b.tardir name) (some identity) = true then []
        else [(⟨join b.tardir name, .dir⟩ : Item)]) = [] ↔ b.exclusions.Excluded b.tardir name (some identity) := by
      rw [← hskip]
      split_ifs with h <;> simp [h]
    rw [hhere]
    constructor
    · rintro ⟨hfirst, hrest⟩ name' identity' contents' hentry
      rcases mem_cons.mp hentry with heq | hentry
      · cases heq
        exact hfirst
      · exact hrest _ _ _ hentry
    · exact fun h => ⟨h _ _ _ mem_cons_self, fun _ _ _ hentry => h _ _ _ (mem_cons_of_mem _ hentry)⟩

/-- A backup is complete if and only if it is not encrypted or has no directories directly below its root, and each
run of `createList` gets by with the archives that it may open. -/
theorem createTarFork_complete_iff (b : Backup) : b.Complete b.createTarFork.added ↔
      (b.encryption ≠ .none → ∀ name identity contents,
        (name, Entry.directory identity contents) ∈ b.tree.listing.entries →
          b.exclusions.Excluded b.tardir name (some identity)) ∧ ∀ s ∈ b.stages, s.Fits := by
  have hrun : b.createTarFork = runStages b.stages :=
    if_neg fun h => Nat.not_lt_of_le b.encrypted_group_le h.2
  have hmissed : b.missed = [] ↔ (b.encryption ≠ .none → ∀ name identity contents,
      (name, Entry.directory identity contents) ∈ b.tree.listing.entries →
        b.exclusions.Excluded b.tardir name (some identity)) := by
    rw [missed, ← b.topDirectories_eq_nil_iff b.tree.wellFormed]
    by_cases hmode : b.encryption = .none <;> simp [hmode]
  rw [hrun, complete_iff_perm, ← hmissed]
  have hperm := b.items_perm_stages
  rcases runStages_adds b.stages_divided with ⟨hfits, -, hadded⟩ | ⟨hfits, -, hlength⟩
  · constructor
    · intro hcomplete
      have heq := (hcomplete.trans hperm).length_eq
      rw [length_append, hadded.length_eq, length_map] at heq
      exact ⟨length_eq_zero_iff.mp (by omega), hfits⟩
    · rintro ⟨hnil, -⟩
      rw [hnil, map_nil, nil_append] at hperm
      exact hadded.trans hperm.symm
  · refine iff_of_false (fun hcomplete => ?_) fun h => hfits h.2
    have heq := (hcomplete.trans hperm).length_eq
    rw [length_append] at heq
    omega

end Backup

section

def oneFolder (encryption : Encryption) : Backup where
  exclusions := ⟨[ascii ".", ascii "..", ascii "lost+found"], [], []⟩
  tardir := ascii "/data"
  tree := ⟨.directory (ascii "misc") (1, 2) .nil .nil, by decide, not_mem_nil, trivial, trivial⟩
  encryption
  cores := 8
  cores_pos := by decide
  totalBackupSize := 0
  adbbackup := false

/-- The backup ends well without the folder. Without encryption it holds it. -/
theorem encrypted_misses_folder :
    (oneFolder .all).createTarFork = ⟨true, []⟩ ∧ ¬ (oneFolder .all).Complete (oneFolder .all).createTarFork.added ∧
      (oneFolder .none).createTarFork = ⟨true, [ascii "/data/misc"]⟩ := by
  have hempty : (oneFolder .all).createTarFork = ⟨true, []⟩ := by decide +kernel
  have hkept : ¬ (oneFolder .all).exclusions.Excluded (ascii "/data") (ascii "misc") (some (1, 2)) := by
    rw [← checkSkipDirs_iff _ _ _ (by decide)]
    decide +kernel
  refine ⟨hempty, fun hcomplete => ?_, by decide +kernel⟩
  have hmem := (hcomplete.2 (join (ascii "/data") (ascii "misc"))).mpr (.directory mem_cons_self hkept)
  cases hmem

end

end AeraRecovery.TarBackup
