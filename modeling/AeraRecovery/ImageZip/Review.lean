import AeraRecovery.ImageZip.Inspect
import AeraRecovery.Lib.Steps

namespace AeraRecovery.ImageZip

open Lib Bytes Checks Crc32 Steps Text List Option

def Short (value : Bytes) : Prop := value.length < 2 ^ 64

theorem bind_append_inj {v w s t : Bytes} (hv : Short v) (hw : Short w) (h : bind v ++ s = bind w ++ t) :
    v = w ∧ s = t := by
  simp only [bind, append_assoc] at h
  obtain ⟨hlength, hrest⟩ := append_inj h (by rw [LittleEndian.length_bytes, LittleEndian.length_bytes])
  exact append_inj hrest (LittleEndian.bytes_injective hv hw hlength)

theorem flatMap_bind_inj {l m : List Bytes} (hl : ∀ v ∈ l, Short v) (hm : ∀ v ∈ m, Short v)
    (h : l.flatMap bind = m.flatMap bind) : l = m := by
  have hne : ∀ (v : Bytes) (rest : List Bytes), (v :: rest).flatMap bind ≠ [] := by
    intro v rest hnil
    have := congrArg length hnil
    simp only [flatMap_cons, bind, length_append, LittleEndian.length_bytes, length_nil] at this
    omega
  induction l generalizing m with
  | nil =>
    cases m with
    | nil => rfl
    | cons w m => exact absurd h.symm (hne w m)
  | cons v l ih =>
    cases m with
    | nil => exact absurd h (hne v l)
    | cons w m =>
      rw [forall_mem_cons] at hl hm
      obtain ⟨rfl, hrest⟩ := bind_append_inj hl.1 hm.1 h
      rw [ih hl.2 hm.2 hrest]

def fields (requirements : Bytes) (layout : Option Bytes) (images : List (Bytes × Entry)) : List Bytes :=
  requirements :: (layout.toList ++ images.flatMap fun image => [image.1, image.2.text])

theorem reviewed_eq (requirements : Bytes) (layout : Option Bytes) (images : List (Bytes × Entry)) :
    reviewed requirements layout images = (fields requirements layout images).flatMap bind := by
  have himages : images.flatMap (fun image => bind image.1 ++ bind image.2.text) =
      (images.flatMap fun image => [image.1, image.2.text]).flatMap bind := by
    rw [flatMap_assoc]
    simp only [flatMap_cons, flatMap_nil, append_nil]
  rw [reviewed, himages, fields, flatMap_cons, flatMap_append, append_assoc]
  cases layout with
  | none => rfl
  | some blob => simp

theorem length_pairs {α β : Type} (f g : α → β) (l : List α) : (l.flatMap fun x => [f x, g x]).length = 2 * l.length := by
  induction l with
  | nil => rfl
  | cons x l ih =>
    simp only [flatMap_cons, length_append, length_cons, length_nil, ih]
    omega

theorem pairs_inj {α β : Type} {f g : α → β} {l m : List α}
    (h : (l.flatMap fun x => [f x, g x]) = m.flatMap fun x => [f x, g x]) :
    l.map (fun x => (f x, g x)) = m.map fun x => (f x, g x) := by
  induction l generalizing m with
  | nil =>
    cases m with
    | nil => rfl
    | cons y m => cases h
  | cons x l ih =>
    cases m with
    | nil => cases h
    | cons y m =>
      simp only [flatMap_cons, cons_append, nil_append, cons.injEq] at h
      rw [map_cons, map_cons, h.1, h.2.1, ih h.2.2]

theorem fields_inj {r r' : Bytes} {layout layout' : Option Bytes} {images images' : List (Bytes × Entry)}
    (h : fields r layout images = fields r' layout' images') :
    r = r' ∧ layout = layout' ∧ images.map (fun i => (i.1, i.2.text)) = images'.map fun i => (i.1, i.2.text) := by
  obtain ⟨hr, hrest⟩ := cons.inj h
  have hparity := congrArg length hrest
  rw [length_append, length_append, length_pairs, length_pairs] at hparity
  cases layout with
  | none =>
    cases layout' with
    | none => exact ⟨hr, rfl, pairs_inj hrest⟩
    | some blob =>
      simp only [toList_none, toList_some, length_nil, length_singleton] at hparity
      omega
  | some blob =>
    cases layout' with
    | none =>
      simp only [toList_none, toList_some, length_nil, length_singleton] at hparity
      omega
    | some blob' =>
      obtain ⟨rfl, hpairs⟩ := cons.inj hrest
      exact ⟨hr, rfl, pairs_inj hpairs⟩

theorem mem_decimalInt {n : Int} {c : UInt8} (h : c ∈ decimalInt n) : c ≠ 58 := by
  have hdigit : ∀ {m : Nat}, c ∈ decimal m → c ≠ 58 := by
    rintro m hc rfl
    exact absurd (mem_decimal hc).2 (by decide)
  rw [decimalInt] at h
  split_ifs at h
  · rcases mem_cons.mp h with rfl | h
    · decide
    · exact hdigit h
  · exact hdigit h

theorem decimal_injective {m n : Nat} (h : decimal m = decimal n) : m = n := by
  rw [← value_decimal m, h, value_decimal]

theorem decimalInt_injective {m n : Int} (h : decimalInt m = decimalInt n) : m = n := by
  have hminus : ∀ k : Nat, ∀ l, decimal k ≠ 45 :: l := by
    intro k l hk
    exact absurd (mem_decimal (n := k) (hk ▸ mem_cons_self)).1 (by decide)
  rw [decimalInt, decimalInt] at h
  split_ifs at h with hm hn hn
  · have := decimal_injective (cons.inj h).2
    omega
  · exact absurd h.symm (hminus _ _)
  · exact absurd h (hminus _ _)
  · have := decimal_injective h
    omega

variable (e : Entry)

def Entry.numbers : List Bytes :=
  [decimalInt e.offset.toInt, decimal e.method.toNat, decimal e.crc32.toNat, decimal e.compressedLength.toNat,
    decimal e.uncompressedLength.toNat]

theorem Entry.text_eq : e.text = [58].intercalate e.numbers := by
  simp [Entry.text, Entry.numbers, intercalate, ascii]

theorem Entry.splitOn_text : e.text.splitOn 58 = e.numbers := by
  have hdecimal : ∀ n, 58 ∉ decimal n := fun n hn => absurd (mem_decimal hn).2 (by decide)
  have hnumbers : ∀ n ∈ e.numbers, 58 ∉ n := by
    simp only [Entry.numbers, forall_mem_cons]
    exact ⟨fun h => mem_decimalInt h rfl, hdecimal _, hdecimal _, hdecimal _, hdecimal _, nofun⟩
  rw [Entry.text_eq, splitOn_intercalate 58 hnumbers]
  exact cons_ne_nil _ _

structure Row where
  name : Bytes
  offset : Int64
  method : UInt16
  crc32 : UInt32
  compressedLength : UInt64
  uncompressedLength : UInt64
  deriving DecidableEq

def row (image : Bytes × Entry) : Row :=
  ⟨image.1, image.2.offset, image.2.method, image.2.crc32, image.2.compressedLength, image.2.uncompressedLength⟩

theorem row_eq {i j : Bytes × Entry} (hname : i.1 = j.1) (htext : i.2.text = j.2.text) : row i = row j := by
  have hnumbers : i.2.numbers = j.2.numbers := by rw [← Entry.splitOn_text, htext, Entry.splitOn_text]
  simp only [Entry.numbers, cons.injEq] at hnumbers
  obtain ⟨hoffset, hmethod, hcrc, hcompressed, huncompressed, -⟩ := hnumbers
  simp only [row, Row.mk.injEq]
  refine ⟨hname, ?_, ?_, ?_, ?_, ?_⟩
  · exact Int64.toInt_inj.mp (decimalInt_injective hoffset)
  · exact UInt16.toNat_inj.mp (decimal_injective hmethod)
  · exact UInt32.toNat_inj.mp (decimal_injective hcrc)
  · exact UInt64.toNat_inj.mp (decimal_injective hcompressed)
  · exact UInt64.toNat_inj.mp (decimal_injective huncompressed)

theorem rows_eq {l m : List (Bytes × Entry)}
    (h : l.map (fun i => (i.1, i.2.text)) = m.map fun i => (i.1, i.2.text)) : l.map row = m.map row := by
  induction l generalizing m with
  | nil =>
    cases m with
    | nil => rfl
    | cons j m => cases h
  | cons i l ih =>
    cases m with
    | nil => cases h
    | cons j m =>
      simp only [map_cons, cons.injEq, Prod.mk.injEq] at h
      rw [map_cons, map_cons, row_eq h.1.1 h.1.2, ih h.2]

theorem length_decimalInt_le (n : Int64) : (decimalInt n.toInt).length ≤ 21 := by
  have hle : n.toInt.natAbs < 10 ^ 20 := by
    have h₁ := n.toInt_lt
    have h₂ := n.le_toInt
    omega
  have hlength := length_decimal_le (by decide : 0 < 20) hle
  rw [decimalInt]
  split_ifs
  · rw [length_cons]
    omega
  · omega

theorem short_text : Short e.text := by
  have hoffset := length_decimalInt_le e.offset
  have hmethod := length_decimal_le (by decide : 0 < 20) (show e.method.toNat < 10 ^ 20 by have := e.method.toNat_lt; omega)
  have hcrc := length_decimal_le (by decide : 0 < 20) (show e.crc32.toNat < 10 ^ 20 by have := e.crc32.toNat_lt; omega)
  have hcompressed := length_decimal_le (by decide : 0 < 20)
    (show e.compressedLength.toNat < 10 ^ 20 by have := e.compressedLength.toNat_lt; omega)
  have huncompressed := length_decimal_le (by decide : 0 < 20)
    (show e.uncompressedLength.toNat < 10 ^ 20 by have := e.uncompressedLength.toNat_lt; omega)
  simp only [Short, Entry.text, length_append, ascii, length_map, String.length_toList]
  have : (":" : String).length = 1 := rfl
  omega

theorem short_small {a : Archive} {name data : Bytes} {limit : Nat} (hlimit : limit < 2 ^ 64)
    (h : small a name limit = some data) : Short data := by
  obtain ⟨entry, -, h⟩ := bind_eq_some_iff.mp h
  split_ifs at h with hbad
  obtain ⟨d, hd, h⟩ := bind_eq_some_iff.mp h
  split_ifs at h
  obtain rfl := some.inj h
  simp only [Bool.or_eq_true, decide_eq_true_eq, not_or] at hbad
  rw [Short, a.length_extract entry d hd]
  omega

theorem short_collect {files : List (Bytes × Entry)} {images out : SortedMap Bytes Entry}
    (himages : ∀ i ∈ images.entries, Short i.1) (h : collect files images = some out) : ∀ i ∈ out.entries, Short i.1 := by
  induction files generalizing images with
  | nil =>
    obtain rfl := some.inj h
    exact himages
  | cons file files ih =>
    rw [collect] at h
    dsimp only at h
    split_ifs at h with himage hbad
    · exact ih himages h
    · refine ih (fun i hi => ?_) h
      rcases SortedMap.mem_insertEntry hi with rfl | hi
      · have hname : Payload.Extraction.ValidName (file.1.take (file.1.length - 4)) := by
          by_contra hname
          exact hbad (.inl hname)
        rw [Payload.Extraction.ValidName, not_or, not_or] at hname
        change (file.1.take (file.1.length - 4)).length < 2 ^ 64
        omega
      · exact himages i hi

section

variable (a : Archive)

def layoutBytes : Option Bytes := if (a.findEntry superEmpty).isSome then small a superEmpty (4 * 1024 * 1024) else none

def imageTable : List (Bytes × Entry) :=
  match a.iterate with
  | none => []
  | some (files, _) => ((collect files .empty).map SortedMap.entries).getD []

/-- The bytes that are fed to the review hash of an archive that is accepted. -/
def reviewBytes : Bytes := reviewed ((small a androidInfo (512 * 1024)).getD []) (layoutBytes a) (imageTable a)

end

section

variable {readFromImageBlob : Bytes → Option Metadata} {readFirmwareArb : Bytes → Arb} {sha256 : Bytes → Bytes}
variable {a b : Archive} {path path' : Bytes} {readArb readArb' : Bool}

/-- Of an archive that is accepted the inspection has read everything that it binds. -/
structure Bound (a : Archive) (requirements : Bytes) : Prop where
  requirements : small a androidInfo (512 * 1024) = some requirements
  layout : (layoutBytes a).isSome = (a.findEntry superEmpty).isSome
  names : ∀ i ∈ imageTable a, Short i.1

variable {info info' : Info}

theorem inspectRequirements_ok (h : inspectRequirements a info = .ok info') :
    ∃ text, small a androidInfo (512 * 1024) = some text ∧ info' = { info with requirements := text } := by
  rw [inspectRequirements] at h
  split at h
  · cases h
  · rename_i text htext
    split_ifs at h
    cases h
    exact ⟨text, htext, rfl⟩

theorem inspectLayout_ok {layout : Option Bytes} (h : inspectLayout readFromImageBlob a info = .ok (layout, info')) :
    layout = layoutBytes a ∧ layout.isSome = (a.findEntry superEmpty).isSome ∧
      info'.requirements = info.requirements ∧ info'.valid = info.valid := by
  rw [inspectLayout] at h
  split at h
  · rename_i hfind
    cases h
    rw [layoutBytes, hfind]
    exact ⟨rfl, rfl, rfl, rfl⟩
  · rename_i entry hfind
    split at h
    · cases h
    · rename_i blob hblob
      dsimp only at h
      split_ifs at h
      cases h
      rw [layoutBytes, hfind, hblob]
      exact ⟨rfl, rfl, rfl, rfl⟩

variable {images : List (Bytes × Entry)}

theorem inspectImages_ok (h : inspectImages a info = .ok images) :
    images = imageTable a ∧ ∀ i ∈ images, Short i.1 := by
  rw [inspectImages] at h
  split at h
  · cases h
  · rename_i files finished hiterate
    split at h
    · cases h
    · rename_i out hcollect
      split_ifs at h
      cases h
      refine ⟨?_, short_collect (fun i hi => absurd hi not_mem_nil) hcollect⟩
      rw [imageTable, hiterate]
      dsimp only
      rw [hcollect]
      rfl

theorem addPartition_ok {i : Bytes × Entry} (h : addPartition a info i = .ok info') :
    info'.requirements = info.requirements ∧ info'.valid = info.valid := by
  rw [addPartition] at h
  split_ifs at h
  cases h
  exact ⟨rfl, rfl⟩

theorem errors_error {E : Info → Prop} {α : Type} {e : Info} (h : E e) : Errors E (.error e : Except Info α) := by
  rintro _ ⟨⟩
  exact h

theorem errors_inspectRequirements : Errors (·.valid = info.valid) (inspectRequirements a info) := by
  unfold inspectRequirements
  split
  · exact errors_error rfl
  · split_ifs
    · exact errors_error rfl
    · exact errors_pure

theorem errors_inspectLayout : Errors (·.valid = info.valid) (inspectLayout readFromImageBlob a info) := by
  unfold inspectLayout
  split
  · exact errors_pure
  · split
    · exact errors_error rfl
    · dsimp only
      split_ifs
      · exact errors_pure
      · exact errors_error rfl

theorem errors_inspectImages : Errors (·.valid = info.valid) (inspectImages a info) := by
  unfold inspectImages
  split
  · exact errors_error rfl
  · split
    · exact errors_error rfl
    · split_ifs
      · exact errors_error rfl
      · exact errors_pure

theorem errors_addPartition {i : Bytes × Entry} : Errors (·.valid = info.valid) (addPartition a info i) := by
  unfold addPartition
  dsimp only
  split_ifs
  · exact errors_error rfl
  · exact errors_pure

theorem errors_inspection :
    Errors (·.valid = false) (inspection readFromImageBlob readFirmwareArb sha256 a path readArb) := by
  refine errors_bind errors_inspectRequirements fun info h => ?_
  obtain ⟨text, -, rfl⟩ := inspectRequirements_ok h
  refine errors_bind errors_inspectLayout fun ⟨layout, info⟩ h => ?_
  obtain ⟨-, -, -, hvalid⟩ := inspectLayout_ok h
  refine errors_bind (hvalid ▸ errors_inspectImages) fun images h => errors_bind ?_ fun _ _ => errors_pure
  exact errors_foldlM (I := fun s => s.valid = false) (fun i s s' hs h => (addPartition_ok h).2.trans hs)
    (fun i s hs => hs ▸ errors_addPartition) hvalid

theorem bound_of_valid (h : (inspectImageZip readFromImageBlob readFirmwareArb sha256 a path readArb).valid = true) :
    Bound a (inspectImageZip readFromImageBlob readFirmwareArb sha256 a path readArb).requirements ∧
      (inspectImageZip readFromImageBlob readFirmwareArb sha256 a path readArb).manifestHash = sha256 (reviewBytes a) := by
  rw [inspectImageZip] at h ⊢
  split at h
  · cases h
  · split at h
    · rename_i info hok
      simp only [inspection, bind_ok_iff] at hok
      obtain ⟨info₁, h₁, ⟨layout, info₂⟩, h₂, images, h₃, info₃, h₄, hok⟩ := hok
      obtain ⟨text, htext, rfl⟩ := inspectRequirements_ok h₁
      obtain ⟨hlayout, hsome, hrequirements, -⟩ := inspectLayout_ok h₂
      obtain ⟨himages, hnames⟩ := inspectImages_ok h₃
      have hkept := foldlM_invariant (I := fun s => s.requirements = text)
        (fun i _ s s' hs h => (addPartition_ok h).1.trans hs) hrequirements h₄
      cases hok
      rw [hkept, hlayout, himages]
      refine ⟨⟨htext, hlayout ▸ hsome, himages ▸ hnames⟩, ?_⟩
      rw [reviewBytes, htext]
      rfl
    · rename_i info herror
      rw [errors_inspection _ herror] at h
      cases h

structure Agree (a b : Archive) : Prop where
  requirements : small a androidInfo (512 * 1024) = small b androidInfo (512 * 1024)
  present : (a.findEntry superEmpty).isSome = (b.findEntry superEmpty).isSome
  layout : layoutBytes a = layoutBytes b
  images : (imageTable a).map row = (imageTable b).map row

variable {requirements : Bytes}

theorem Bound.short (h : Bound a requirements) :
    ∀ v ∈ fields requirements (layoutBytes a) (imageTable a), Short v := by
  rw [fields, forall_mem_cons]
  refine ⟨short_small (by decide) h.requirements, fun v hv => ?_⟩
  rcases mem_append.mp hv with hv | hv
  · have hlayout := mem_toList.mp hv
    rw [layoutBytes] at hlayout
    split_ifs at hlayout
    exact short_small (by decide) hlayout
  · obtain ⟨i, hi, hv⟩ := mem_flatMap.mp hv
    simp only [mem_cons, not_mem_nil, or_false] at hv
    rcases hv with rfl | rfl
    · exact h.names i hi
    · exact short_text i.2

theorem agree_of_reviewBytes {requirements' : Bytes} (ha : Bound a requirements) (hb : Bound b requirements')
    (h : reviewBytes a = reviewBytes b) : Agree a b := by
  rw [reviewBytes, reviewBytes, ha.requirements, hb.requirements, getD_some, getD_some, reviewed_eq, reviewed_eq] at h
  obtain ⟨rfl, hlayout, himages⟩ := fields_inj (flatMap_bind_inj ha.short hb.short h)
  exact ⟨ha.requirements.trans hb.requirements.symm, by rw [← ha.layout, hlayout, hb.layout], hlayout, rows_eq himages⟩

variable (readFromImageBlob readFirmwareArb sha256) in
/-- The bytes of the review hash determine what was reviewed, and so does the hash where it does not collide. -/
theorem review_determines (a b : Archive) (path path' : Bytes) (readArb readArb' : Bool)
    (ha : (inspectImageZip readFromImageBlob readFirmwareArb sha256 a path readArb).valid = true)
    (hb : (inspectImageZip readFromImageBlob readFirmwareArb sha256 b path' readArb').valid = true) :
    (reviewBytes a = reviewBytes b → Agree a b) ∧
      ((sha256 (reviewBytes a) = sha256 (reviewBytes b) → reviewBytes a = reviewBytes b) →
        (inspectImageZip readFromImageBlob readFirmwareArb sha256 a path readArb).manifestHash =
          (inspectImageZip readFromImageBlob readFirmwareArb sha256 b path' readArb').manifestHash → Agree a b) := by
  obtain ⟨hbound, hhash⟩ := bound_of_valid ha
  obtain ⟨hbound', hhash'⟩ := bound_of_valid hb
  refine ⟨agree_of_reviewBytes hbound hbound', fun hcollision h => ?_⟩
  rw [hhash, hhash'] at h
  exact agree_of_reviewBytes hbound hbound' (hcollision h)

end

section

def sampleText : Bytes := ascii "require board=sun"

def sampleInfo : Entry := ⟨0, @crc32 .standard 0 sampleText, 17, 17, 0, 0, 0⟩

/-- An archive with one image whose contents do not matter to the review. -/
def sampleArchive (contents : Bytes) : Archive where
  crc := .standard
  findEntry name := if name = androidInfo then some sampleInfo else none
  extractToMemory e := if e = sampleInfo then some sampleText else none
  length_extract := by
    intro e d h
    split_ifs at h with he
    cases h
    rw [he]
    rfl
  iterate := some ([(androidInfo, sampleInfo), (ascii "boot.img", ⟨8, 7, 5, 4096, 64, 0, 0x81a4⟩)], true)
  contents _ := ([contents], true)

theorem review_determines_sample :
    (inspectImageZip (fun _ => none) (fun _ => {}) id (sampleArchive [1]) [] false).valid = true ∧
    (inspectImageZip (fun _ => none) (fun _ => {}) id (sampleArchive [2]) [] true).valid = true ∧
    Agree (sampleArchive [1]) (sampleArchive [2]) := by
  have ha : (inspectImageZip (fun _ => none) (fun _ => {}) id (sampleArchive [1]) [] false).valid = true := by
    decide +kernel
  have hb : (inspectImageZip (fun _ => none) (fun _ => {}) id (sampleArchive [2]) [] true).valid = true := by
    decide +kernel
  exact ⟨ha, hb, (review_determines (fun _ => none) (fun _ => {}) id (sampleArchive [1]) (sampleArchive [2]) [] [] false
    true ha hb).1 rfl⟩

end

end AeraRecovery.ImageZip
