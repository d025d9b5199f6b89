import AeraRecovery.Lib.Steps
import AeraRecovery.Super.Builder

namespace AeraRecovery.Super.FlashLayout

open Lib.Checks Lib.Steps MetadataBuilder List

structure LogicalImageSize where
  name : String
  bytes : Nat

variable (b : MetadataBuilder)

def checkImage : List String → LogicalImageSize → Except String (List String) :=
  insertNew LogicalImageSize.name
    (fun image => ¬ (image.bytes = 0 ∨ image.bytes % 512 ≠ 0 ∨ b.findPartition image.name = none))
    fun image => "Invalid or duplicate logical target: " ++ image.name

def checkCow (names : List String) (name : String) : Except String Unit :=
  ensure ((∃ part ∈ b.findPartition name, part.group = "cow") ∧ 4 < name.length ∧ "-cow".toList <:+ name.toList ∧
    name ∉ names) ("Invalid stale snapshot COW: " ++ name)

variable (shrink : Bool)

/-- Whether the pass that shrinks, or the one that grows, takes up the partition. -/
def Applies (part : Partition) (image : LogicalImageSize) : Prop :=
  ¬ (part.size = image.bytes ∨ decide (image.bytes < part.size) ≠ shrink)

instance (shrink : Bool) (part : Partition) (image : LogicalImageSize) : Decidable (Applies shrink part image) :=
  inferInstanceAs (Decidable (¬ _))

def resizeImage (b : MetadataBuilder) (image : LogicalImageSize) : Option MetadataBuilder :=
  match b.findPartition image.name with
  | none => some b -- not reached: the target was found before, and COW cleanup spares it
  | some part => if Applies shrink part image then b.resizePartition part image.bytes else some b

def resizeStep (b : MetadataBuilder) (image : LogicalImageSize) : Except String MetadataBuilder :=
  require (resizeImage shrink b image)
    ("Cannot fit " ++ image.name ++ " into its Super group after selected shrinks and stale-COW cleanup")

def planImageFlashLayout (images : List LogicalImageSize) (staleCows : List String) :
    Except String MetadataBuilder := do
  let names ← images.foldlM (checkImage b) []
  staleCows.forM (checkCow b names)
  let cleaned := staleCows.foldl removePartition b
  let shrunk ← images.foldlM (resizeStep true) cleaned
  images.foldlM (resizeStep false) shrunk

section

variable {shrink : Bool} {b b' : MetadataBuilder} {image other : LogicalImageSize}

variable {part : Partition}

theorem resizeImage_of_applies (hfind : b.findPartition image.name = some part)
    (happly : Applies shrink part image) : resizeImage shrink b image = b.resizePartition part image.bytes := by
  simp only [resizeImage, hfind, happly, if_true]

theorem resizeImage_of_not_applies (h : ∀ part, b.findPartition image.name = some part → ¬ Applies shrink part image) :
    resizeImage shrink b image = some b := by
  rw [resizeImage]
  cases hfind : b.findPartition image.name with
  | none => rfl
  | some part => exact if_neg (h part hfind)

theorem resizeImage_cases (h : resizeImage shrink b image = some b') :
    (b' = b ∧ ∀ part, b.findPartition image.name = some part → ¬ Applies shrink part image) ∨
      ∃ part, b.findPartition image.name = some part ∧ Applies shrink part image ∧
        b.Fits part image.bytes ∧ b' = b.setSize image.name image.bytes := by
  by_cases hidle : ∀ part, b.findPartition image.name = some part → ¬ Applies shrink part image
  · rw [resizeImage_of_not_applies hidle] at h
    exact .inl ⟨(Option.some.inj h).symm, hidle⟩
  · push Not at hidle
    obtain ⟨part, hfind, happly⟩ := hidle
    rw [resizeImage_of_applies hfind happly, resizePartition, Option.ite_none_right_eq_some,
      (findPartition_eq_some_iff.mp hfind).2] at h
    exact .inr ⟨part, hfind, happly, h.1, (Option.some.inj h.2).symm⟩

theorem findPartition_resizeImage (h : resizeImage shrink b image = some b') (hne : other.name ≠ image.name) :
    b'.findPartition other.name = b.findPartition other.name := by
  rcases resizeImage_cases h with ⟨rfl, -⟩ | ⟨part, -, -, -, rfl⟩
  · rfl
  · exact findPartition_setSize_of_ne hne image.bytes

theorem roundUp_of_applies (hpart : part ∈ b.partitions) (h : Applies shrink part image) :
    if shrink then roundUp b.blockSize image.bytes ≤ part.size else part.size < roundUp b.blockSize image.bytes := by
  simp only [Applies, not_or, ne_eq, not_not] at h
  cases shrink with
  | true => exact roundUp_le (b.aligned part hpart) (of_decide_eq_true h.2).le
  | false =>
    have hlt := of_decide_eq_false h.2
    have hle := le_roundUp b.blockSize_pos image.bytes
    simp only [Bool.false_eq_true, if_false]
    omega

theorem resizeImage_idle_bind (hidle : ∀ part, b.findPartition image.name = some part → ¬ Applies shrink part image)
    (hne : image.name ≠ other.name) :
    (resizeImage shrink b other).bind (fun b' => resizeImage shrink b' image) = resizeImage shrink b other := by
  cases h : resizeImage shrink b other with
  | none => rfl
  | some b' =>
    apply resizeImage_of_not_applies
    rwa [findPartition_resizeImage h hne]

/-- The exchange argument: two images of different targets may be resized in either order. -/
theorem resizeImage_commute (hne : image.name ≠ other.name) : Commute (resizeImage shrink) image other := by
  intro b
  by_cases hi : ∀ part, b.findPartition image.name = some part → ¬ Applies shrink part image
  · rw [resizeImage_of_not_applies hi, resizeImage_idle_bind hi hne, Option.bind_some]
  by_cases ho : ∀ part, b.findPartition other.name = some part → ¬ Applies shrink part other
  · rw [resizeImage_of_not_applies ho, resizeImage_idle_bind ho hne.symm, Option.bind_some]
  push Not at hi ho
  obtain ⟨p, hp, hpa⟩ := hi
  obtain ⟨q, hq, hqa⟩ := ho
  obtain ⟨hpm, hpn⟩ := findPartition_eq_some_iff.mp hp
  obtain ⟨hqm, hqn⟩ := findPartition_eq_some_iff.mp hq
  have hboth : roundUp b.blockSize image.bytes ≤ p.size ∧ roundUp b.blockSize other.bytes ≤ q.size ∨
      p.size < roundUp b.blockSize image.bytes ∧ q.size < roundUp b.blockSize other.bytes := by
    have h₁ := roundUp_of_applies hpm hpa
    have h₂ := roundUp_of_applies hqm hqa
    cases shrink with
    | true => exact .inl ⟨h₁, h₂⟩
    | false => exact .inr ⟨h₁, h₂⟩
  have hafter : ∀ {first second : LogicalImageSize} {u v : Partition}, first.name ≠ second.name →
      b.findPartition first.name = some u → Applies shrink u first → b.findPartition second.name = some v →
      Applies shrink v second →
      (resizeImage shrink b first).bind (fun b' => resizeImage shrink b' second) =
        (b.resizePartition u first.bytes).bind fun b' => b'.resizePartition v second.bytes := by
    intro first second u v hne hu hua hv hva
    rw [resizeImage_of_applies hu hua]
    refine Option.bind_congr fun b' hb' => resizeImage_of_applies ?_ hva
    rw [← hv]
    exact findPartition_resizeImage ((resizeImage_of_applies hu hua).trans hb') hne.symm
  rw [hafter hne hp hpa hq hqa, hafter hne.symm hq hqa hp hpa]
  exact resizePartition_swap hpm hqm (by rwa [hpn, hqn]) hboth

def passStep (shrink : Bool) (block : Nat) (part : Partition) (image : LogicalImageSize) : Partition :=
  if part.name = image.name ∧ Applies shrink part image then { part with size := roundUp block image.bytes } else part

theorem resizeImage_partitions (h : resizeImage shrink b image = some b') :
    b'.partitions = b.partitions.map (passStep shrink b.blockSize · image) ∧ b'.groups = b.groups ∧
      b'.blockSize = b.blockSize ∧ b'.capacity = b.capacity := by
  rcases resizeImage_cases h with ⟨rfl, hidle⟩ | ⟨part, hfind, happly, -, rfl⟩
  · refine ⟨?_, rfl, rfl, rfl⟩
    conv_lhs => rw [← map_id b'.partitions]
    refine map_congr_left fun p hp => ?_
    rw [passStep, if_neg]
    · rfl
    · rintro ⟨hname, happly⟩
      exact hidle p (findPartition_eq_some_iff.mpr ⟨hp, hname⟩) happly
  · refine ⟨map_congr_left fun p hp => ?_, rfl, rfl, rfl⟩
    rw [resized, passStep]
    by_cases hname : p.name = image.name
    · have heq : b.findPartition image.name = some p := findPartition_eq_some_iff.mpr ⟨hp, hname⟩
      obtain rfl := Option.some.inj (hfind.symm.trans heq)
      rw [if_pos hname, if_pos ⟨hname, happly⟩]
    · rw [if_neg hname, if_neg fun h => hname h.1]

variable {images : List LogicalImageSize}

theorem pass_partitions (h : images.foldlM (resizeImage shrink) b = some b') :
    b'.partitions = b.partitions.map (images.foldl (passStep shrink b.blockSize)) ∧ b'.groups = b.groups ∧
      b'.blockSize = b.blockSize ∧ b'.capacity = b.capacity := by
  induction images generalizing b with
  | nil =>
    obtain rfl := Option.some.inj h
    exact ⟨(map_id' _).symm, rfl, rfl, rfl⟩
  | cons image images ih =>
    obtain ⟨next, hnext, hrest⟩ := Option.bind_eq_some_iff.mp h
    obtain ⟨hparts, hgroups, hblock, hcap⟩ := resizeImage_partitions hnext
    obtain ⟨hparts', hgroups', hblock', hcap'⟩ := ih hrest
    refine ⟨?_, hgroups'.trans hgroups, hblock'.trans hblock, hcap'.trans hcap⟩
    rw [hparts', hparts, hblock, map_map]
    rfl

theorem passStep_name (shrink : Bool) (block : Nat) (part : Partition) (image : LogicalImageSize) :
    (passStep shrink block part image).name = part.name := by
  rw [passStep]
  split_ifs <;> rfl

variable {block : Nat}

theorem foldl_passStep_of_not_mem
    (h : part.name ∉ images.map LogicalImageSize.name) : images.foldl (passStep shrink block) part = part := by
  induction images with
  | nil => rfl
  | cons image images ih =>
    rw [map_cons, mem_cons, not_or] at h
    rw [foldl_cons, passStep, if_neg fun hc => h.1 hc.1]
    exact ih h.2

theorem foldl_passStep_of_mem
    (hnodup : (images.map LogicalImageSize.name).Nodup) (hmem : image ∈ images) (hname : part.name = image.name) :
    images.foldl (passStep shrink block) part = passStep shrink block part image := by
  induction images with
  | nil => cases hmem
  | cons first images ih =>
    rw [map_cons, nodup_cons] at hnodup
    rcases mem_cons.mp hmem with rfl | hmem
    · rw [foldl_cons]
      apply foldl_passStep_of_not_mem
      rw [passStep_name, hname]
      exact hnodup.1
    · have hne : part.name ≠ first.name := fun heq =>
        hnodup.1 (heq ▸ hname ▸ mem_map_of_mem hmem)
      rw [foldl_cons, passStep, if_neg fun hc => hne hc.1]
      exact ih hnodup.2 hmem

theorem passStep_passStep (hblock : 0 < block) (haligned : block ∣ part.size) (hname : part.name = image.name) :
    passStep false block (passStep true block part image) image =
      { part with size := roundUp block image.bytes } := by
  have hle := le_roundUp hblock image.bytes
  rcases Nat.lt_trichotomy image.bytes part.size with hlt | heq | hgt
  · have happly : Applies true part image := by
      simp only [Applies, hlt, decide_true, ne_eq, not_true_eq_false, or_false]
      omega
    rw [passStep.eq_1 true, if_pos ⟨hname, happly⟩, passStep, if_neg]
    rintro ⟨-, happly'⟩
    simp only [Applies, not_or, ne_eq, not_not, decide_eq_false_iff_not] at happly'
    omega
  · have hround : roundUp block image.bytes = part.size := by
      rw [heq]
      exact roundUp_of_dvd hblock haligned
    have hidle : ∀ s, ¬ Applies s part image := fun s happly => happly (.inl heq.symm)
    rw [passStep.eq_1 true, if_neg fun hc => hidle _ hc.2, passStep, if_neg fun hc => hidle _ hc.2, hround]
  · have hidle : ¬ Applies true part image := by
      intro happly
      simp only [Applies, not_or, ne_eq, not_not, decide_eq_true_eq] at happly
      omega
    have happly : Applies false part image := by
      simp only [Applies, hgt.not_gt, decide_false, ne_eq, not_true_eq_false, or_false]
      omega
    rw [passStep.eq_1 true, if_neg fun hc => hidle hc.2, passStep, if_pos ⟨hname, happly⟩]

end

section

variable {b b' : MetadataBuilder} {images : List LogicalImageSize}

theorem checkImages_ok_iff {names : List String} : images.foldlM (checkImage b) [] = .ok names ↔
      (∀ image ∈ images, image.bytes ≠ 0 ∧ image.bytes % 512 = 0 ∧ b.findPartition image.name ≠ none) ∧
      (images.map LogicalImageSize.name).Nodup ∧ names = images.map LogicalImageSize.name := by
  simp only [checkImage, foldlM_insertNew_ok_iff, not_or, ne_eq, not_not]

theorem toOption_resizeStep (shrink : Bool) (b : MetadataBuilder) (image : LogicalImageSize) :
    (resizeStep shrink b image).toOption = resizeImage shrink b image := by
  rw [resizeStep]
  cases resizeImage shrink b image <;> rfl

theorem pass_ok_iff {shrink : Bool} :
    images.foldlM (resizeStep shrink) b = .ok b' ↔ images.foldlM (resizeImage shrink) b = some b' := by
  have h := toOption_foldlM (resizeStep shrink) images b
  simp only [toOption_resizeStep] at h
  rw [← h]
  cases images.foldlM (resizeStep shrink) b <;> simp [Except.toOption]

theorem planImageFlashLayout_ok_iff {cows : List String} : planImageFlashLayout b images cows = .ok b' ↔
      (∀ image ∈ images, image.bytes ≠ 0 ∧ image.bytes % 512 = 0 ∧ b.findPartition image.name ≠ none) ∧
      (images.map LogicalImageSize.name).Nodup ∧
      (∀ name ∈ cows, checkCow b (images.map LogicalImageSize.name) name = .ok ()) ∧
      ∃ shrunk, images.foldlM (resizeImage true) (cows.foldl removePartition b) = some shrunk ∧
        images.foldlM (resizeImage false) shrunk = some b' := by
  simp only [planImageFlashLayout, bind_ok_iff, checkImages_ok_iff, forM_ok_iff, pass_ok_iff, exists_const]
  constructor
  · rintro ⟨names, ⟨hall, hnodup, rfl⟩, hcows, hpasses⟩
    exact ⟨hall, hnodup, hcows, hpasses⟩
  · rintro ⟨hall, hnodup, hcows, hpasses⟩
    exact ⟨_, ⟨hall, hnodup, rfl⟩, hcows, hpasses⟩

theorem pass_perm {shrink : Bool} {images' : List LogicalImageSize} (hp : images.Perm images')
    (hnodup : (images.map LogicalImageSize.name).Nodup) (b : MetadataBuilder) :
    images.foldlM (resizeImage shrink) b = images'.foldlM (resizeImage shrink) b := by
  apply foldlM_perm hp
  exact (pairwise_map.mp hnodup).imp fun hne => resizeImage_commute hne

/-- A plan that succeeds gives every selected partition the requested size in whole logical blocks, removes exactly
the listed COW partitions and leaves everything else alone. It succeeds, with the same result, in any order of the
images. -/
theorem planImageFlashLayout_exact (b b' : MetadataBuilder) (images : List LogicalImageSize) (staleCows : List String)
    (h : planImageFlashLayout b images staleCows = .ok b') :
    (∀ image ∈ images, ∃ p ∈ b.partitions, p.name = image.name ∧
      { p with size := roundUp b.blockSize image.bytes } ∈ b'.partitions) ∧
    b'.partitions.map Partition.name = (b.partitions.map Partition.name).filter (· ∉ staleCows) ∧
    (∀ p ∈ b.partitions, p.name ∉ staleCows → p.name ∉ images.map LogicalImageSize.name → p ∈ b'.partitions) ∧
    b'.groups = b.groups ∧
    ∀ images' : List LogicalImageSize, images'.Perm images → planImageFlashLayout b images' staleCows = .ok b' := by
  obtain ⟨hall, hnodup, hcows, shrunk, hshrink, hgrow⟩ := planImageFlashLayout_ok_iff.mp h
  obtain ⟨hclean, hcleanGroups, hcleanBlock⟩ := foldl_removePartition staleCows b
  obtain ⟨hparts₁, hgroups₁, hblock₁, -⟩ := pass_partitions hshrink
  obtain ⟨hparts₂, hgroups₂, hblock₂, -⟩ := pass_partitions hgrow
  have hpartitions : b'.partitions = (b.partitions.filter fun p => p.name ∉ staleCows).map fun p =>
      images.foldl (passStep false b.blockSize) (images.foldl (passStep true b.blockSize) p) := by
    rw [hparts₂, hparts₁, hblock₁, hcleanBlock, hclean, map_map]
    rfl
  refine ⟨fun image himage => ?_, ?_, fun p hp hcow hother => ?_, ?_, fun images' hperm => ?_⟩
  · obtain ⟨-, -, hfound⟩ := hall image himage
    obtain ⟨p, hfind⟩ := Option.ne_none_iff_exists'.mp hfound
    obtain ⟨hp, hname⟩ := findPartition_eq_some_iff.mp hfind
    have hcow : p.name ∉ staleCows := by
      intro hmem
      have hcheck := ensure_ok_iff.mp (hcows p.name hmem)
      exact hcheck.2.2.2 (hname ▸ mem_map_of_mem himage)
    refine ⟨p, hp, hname, ?_⟩
    rw [hpartitions]
    refine mem_map.mpr ⟨p, mem_filter.mpr ⟨hp, decide_eq_true hcow⟩, ?_⟩
    rw [foldl_passStep_of_mem hnodup himage hname,
      foldl_passStep_of_mem hnodup himage ((passStep_name _ _ _ _).trans hname)]
    exact passStep_passStep b.blockSize_pos (b.aligned p hp) hname
  · rw [hpartitions, map_map, filter_map]
    refine map_congr_left fun p _ => ?_
    have hname : ∀ (s : Bool) (is : List LogicalImageSize) (q : Partition),
        (is.foldl (passStep s b.blockSize) q).name = q.name := by
      intro s is
      induction is with
      | nil => exact fun _ => rfl
      | cons i is ih => exact fun q => (ih _).trans (passStep_name _ _ _ _)
    exact (hname false images _).trans (hname true images p)
  · rw [hpartitions]
    refine mem_map.mpr ⟨p, mem_filter.mpr ⟨hp, decide_eq_true hcow⟩, ?_⟩
    rw [foldl_passStep_of_not_mem hother, foldl_passStep_of_not_mem hother]
  · rw [hgroups₂, hgroups₁, hcleanGroups]
  · have hmap := hperm.map LogicalImageSize.name
    have hnodup' := hmap.nodup_iff.mpr hnodup
    refine planImageFlashLayout_ok_iff.mpr
      ⟨fun i hi => hall i (hperm.mem_iff.mp hi), hnodup', fun name hname => ?_, shrunk, ?_, ?_⟩
    · rw [checkCow, ensure_ok_iff, hmap.mem_iff]
      exact ensure_ok_iff.mp (hcows name hname)
    · rw [pass_perm hperm hnodup', hshrink]
    · rw [pass_perm hperm hnodup', hgrow]

def fullGroup : MetadataBuilder where
  partitions := [⟨"system_a", "main_a", 1024, 1⟩, ⟨"vendor_a", "main_a", 512, 1⟩, ⟨"system_a-cow", "cow", 512, 0⟩]
  groups := [⟨"main_a", 1536⟩, ⟨"cow", 0⟩]
  blockSize := 512
  capacity := 2048
  unique := by decide
  uniqueGroups := by decide
  grouped := by decide
  blockSize_pos := sector_pos
  aligned := by decide

theorem fullGroup_exchange :
    ∃ b', planImageFlashLayout fullGroup [⟨"vendor_a", 1024⟩, ⟨"system_a", 512⟩] ["system_a-cow"] = .ok b' ∧
      b'.partitions.map Partition.name = ["system_a", "vendor_a"] ∧
      planImageFlashLayout fullGroup [⟨"system_a", 512⟩, ⟨"vendor_a", 1024⟩] ["system_a-cow"] = .ok b' := by
  obtain ⟨b', hb'⟩ : ∃ b', planImageFlashLayout fullGroup [⟨"vendor_a", 1024⟩, ⟨"system_a", 512⟩] ["system_a-cow"] =
      .ok b' := ⟨_, rfl⟩
  obtain ⟨-, hnames, -, -, hperm⟩ := planImageFlashLayout_exact _ _ _ _ hb'
  exact ⟨b', hb', hnames.trans (by decide), hperm _ (List.Perm.swap _ _ _)⟩

end

end AeraRecovery.Super.FlashLayout
