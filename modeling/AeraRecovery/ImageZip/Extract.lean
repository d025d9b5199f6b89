import AeraRecovery.ImageZip.Inspect
import AeraRecovery.ImageZip.Splitting
import AeraRecovery.Payload.Extract

namespace AeraRecovery.ImageZip.Extract

open Lib Bytes Checks Commands Staging Steps ImageWriter List Option Prod
open Payload.Extract (Node Directory imageName)

structure Libraries where
  readFromImageBlob : Bytes → Option Metadata
  readFirmwareArb : Bytes → Arb
  sha256 : Bytes → Bytes

/-- What the system answers: the free space, whether the output directory can be opened, whether the package is as it
was when the images have been written, and which calls fail in between. -/
structure Environment extends Faults Bytes where
  available : Option Nat
  directoryOpens : Bool
  unchanged : Bool

abbrev Image := Bytes × ImagePartition

def selectImage (partitions : List ImagePartition) (selected : List Image) (name : Bytes) :
    Except Bytes (List Image) := do
  let invalid := ascii "Invalid selected image: " ++ name
  let part ← require (partitions.find? fun p => p.name = name) invalid
  ensure (part.extractable ∧ name ∉ selected.map fst) invalid
  pure (selected ++ [(name, part)])

def failed : Bytes :=
  ascii "Image ZIP extraction, CRC, sparse validation or storage write failed; no partitions written"

/-- The part of `ExtractZipImages` before the first image is created. A package that cannot be opened is `none`. -/
def prepare (lib : Libraries) (env : Environment) (archive : Option Archive) (path reviewedHash : Bytes)
    (names : List Bytes) : Except Bytes (Archive × List Image) := do
  let a ← require archive (ascii "Cannot open image ZIP")
  let info := inspectImageZip lib.readFromImageBlob lib.readFirmwareArb lib.sha256 a path false
  ensure (info.valid ∧ reviewedHash.length = 32 ∧ info.manifestHash = reviewedHash ∧ names ≠ [])
    (ascii "Image ZIP changed; review it again")
  let images ← names.foldlM (selectImage info.partitions) []
  let total := (images.map fun image => image.2.bytes).sum % 2 ^ 64
  let noStorage := ascii "Not enough storage to stage and verify the selected images"
  let available ← require env.available noStorage
  ensure (total ≤ available) noStorage
  ensure (env.directoryOpens = true) (ascii "Invalid extraction directory")
  pure (a, images)

section

variable (sha256 : Bytes → Bytes) (faults : Faults Bytes) (a : Archive)

/-- The writer puts out what it can of a package that it then refuses. -/
def extractImage (image : Image) : Command Bytes (Opened Bytes) Bytes := do
  observe faults failed
  let entry ← ofExcept (require (a.findEntry (imageName image.1)) failed)
  let (ok, w) ← ofExcept (require (@feed a.crc image.2.toPartition (start image.2.toPartition) (a.contents entry).1) failed)
  call faults (fun _ => w.file) failed
  ofExcept (ensure (ok ∧ (a.contents entry).2) failed)
  let digest ← ofExcept
    (require (finish image.2.toPartition sha256 ⟨entry.uncompressedLength.toNat, entry.crc32⟩ w) failed)
  observe faults failed
  pure digest

def plan : Plan Bytes Bytes Node Bytes Image Bytes where
  node := .file
  empty := []
  name image := imageName image.1
  taken _ := failed
  body := extractImage sha256 faults a

end

def extractZipImages (lib : Libraries) (env : Environment) (archive : Option Archive) (path reviewedHash : Bytes)
    (names hashes : List Bytes) (directory : Directory) : Except Bytes Unit × List Bytes × Directory :=
  match prepare lib env archive path reviewedHash names with
  | .error e => (.error e, hashes, directory)
  | .ok (a, images) =>
    let written := transact (do
      let digests ← stage env.toFaults (plan lib.sha256 env.toFaults a) images
      ofExcept (ensure (env.unchanged = true) failed)
      pure digests) directory
    match written with
    | (.ok digests, after) => (.ok (), digests, after)
    | (.error e, after) => (.error e, [], after)

def Good (sha256 : Bytes → Bytes) (x : Image × Bytes) (contents : Bytes) : Prop :=
  contents.length = x.1.2.bytes ∧ sha256 contents = x.2

theorem good_of_finish {crc : Crc32} {part : Partition} {sha256 : Bytes → Bytes} {entry : ZipEntry} {pieces : List Bytes}
    {w : ImageWriter} {digest : Bytes} (hfeed : feed part (start part) pieces = some (true, w))
    (hfinish : finish part sha256 entry w = some digest) : w.file.length = part.bytes ∧ sha256 w.file = digest := by
  have hstart : (start part).Counts := by
    unfold start
    split_ifs <;> rfl
  have hcounts : w.written = w.file.length := hstart.feed hfeed
  rw [finish] at hfinish
  split_ifs at hfinish with hbad
  simp only [not_or, not_not] at hbad
  exact ⟨hcounts.symm.trans hbad.2.2.1, some.inj hfinish⟩

theorem triple_extractImage {sha256 : Bytes → Bytes} {faults : Faults Bytes} {a : Archive} {image : Image} :
    Triple (fun s => s.contents = []) (extractImage sha256 faults a image)
      (fun digest s => Good sha256 (image, digest) s.contents) fun _ _ => True := by
  have hfault : ∀ n, faults.fails n = true → Bytes → Opened Bytes → True := fun _ _ _ _ => trivial
  refine triple_bind (triple_observe hfault (C := fun c : Bytes => c = [])) fun _ => ?_
  refine triple_try (fun entry _ => triple_try (fun ⟨ok, w⟩ hfeed => ?_) fun _ _ _ _ => trivial) fun _ _ _ _ => trivial
  refine triple_bind (triple_call hfault (Q := fun _ s => s.contents = w.file) fun s hs => rfl) fun _ =>
    triple_check (fun hok => triple_try (fun digest hdigest => ?_) fun _ _ _ _ => trivial) fun _ _ _ => trivial
  rw [require_ok_iff, hok.1] at hfeed
  have hgood := good_of_finish hfeed (require_ok_iff.mp hdigest)
  exact triple_bind (triple_observe hfault (C := fun c => c = w.file)) fun _ => triple_pure fun _ hs => hs ▸ hgood

theorem selectImage_foldlM {partitions : List ImagePartition} {names : List Bytes} {images : List Image}
    (h : names.foldlM (selectImage partitions) [] = .ok images) :
    images.map fst = names ∧ ∀ image ∈ images, (partitions.find? fun p => p.name = image.1) = some image.2 := by
  refine foldlM_prefix (I := fun done (images : List Image) => images.map fst = done ∧
    ∀ image ∈ images, (partitions.find? fun p => p.name = image.1) = some image.2)
    (fun done name s s' hs hstep => ?_) ⟨rfl, fun _ hmem => absurd hmem not_mem_nil⟩ h
  simp only [selectImage, bind_ok_iff, ensure_ok_iff, require_ok_iff, exists_const, pure_ok_iff] at hstep
  obtain ⟨part, hpart, -, rfl⟩ := hstep
  refine ⟨by rw [map_append, hs.1, map_singleton], ?_⟩
  intro image himage
  rcases mem_append.mp himage with himage | himage
  · exact hs.2 image himage
  · rw [mem_singleton.mp himage]
    exact hpart

theorem prepare_ok {lib : Libraries} {env : Environment} {archive : Option Archive} {path reviewedHash : Bytes}
    {names : List Bytes} {a : Archive} {images : List Image}
    (h : prepare lib env archive path reviewedHash names = .ok (a, images)) : archive = some a ∧
      (inspectImageZip lib.readFromImageBlob lib.readFirmwareArb lib.sha256 a path false).manifestHash = reviewedHash ∧
      names.foldlM (selectImage
        (inspectImageZip lib.readFromImageBlob lib.readFirmwareArb lib.sha256 a path false).partitions) [] =
          .ok images := by
  simp only [prepare, bind_ok_iff, ensure_ok_iff, require_ok_iff, exists_const, pure_ok_iff, Prod.mk.injEq] at h
  obtain ⟨_, harchive, ⟨-, -, hhash, -⟩, _, hselect, -, -, -, -, rfl, rfl⟩ := h
  exact ⟨harchive, hhash, hselect⟩

/-- The images of a package that were selected are new in the directory, each with the size that the package declares
and the hash that is returned for it. -/
def Extracted (lib : Libraries) (archive : Option Archive) (path reviewedHash : Bytes) (names hashes : List Bytes)
    (before after : Directory) : Prop :=
  ∃ (a : Archive) (images : List Image) (info : Info), archive = some a ∧
    info = inspectImageZip lib.readFromImageBlob lib.readFirmwareArb lib.sha256 a path false ∧
    info.manifestHash = reviewedHash ∧ images.map fst = names ∧ hashes.length = names.length ∧
    (∀ image ∈ images, (info.partitions.find? fun p => p.name = image.1) = some image.2) ∧
    Added Node.file (fun x => imageName x.1.1) (Good lib.sha256) (images.zip hashes) before after

theorem allOrNothing_stage (lib : Libraries) (env : Environment) (a : Archive) (images : List Image)
    (directory : Directory) : AllOrNothing directory (fun digests after => digests.length = images.length ∧
        Added Node.file (fun x => imageName x.1.1) (Good lib.sha256) (images.zip digests) directory after)
      (transact (do
        let digests ← stage env.toFaults (plan lib.sha256 env.toFaults a) images
        ofExcept (ensure (env.unchanged = true) failed)
        pure digests) directory) := by
  refine allOrNothing_transact (triple_bind (triple_stage (Good lib.sha256) fun _ _ => triple_extractImage)
    fun digests => triple_check (fun _ => triple_pure fun w hw => ?_) fun _ w hw => hw.2.touched)
  exact ⟨hw.1, hw.2.added⟩

theorem extractZipImages_spec (lib : Libraries) (env : Environment) (archive : Option Archive)
    (path reviewedHash : Bytes) (names hashes : List Bytes) (directory : Directory)
    {result : Except Bytes Unit × List Bytes × Directory}
    (hresult : extractZipImages lib env archive path reviewedHash names hashes directory = result) :
    AllOrNothing directory (fun _ => Extracted lib archive path reviewedHash names result.2.1 directory)
      (result.1, result.2.2) := by
  rw [extractZipImages] at hresult
  cases hprepare : prepare lib env archive path reviewedHash names with
  | error e =>
    rw [hprepare] at hresult
    rw [← hresult]
    rfl
  | ok prepared =>
    obtain ⟨a, images⟩ := prepared
    obtain ⟨harchive, hhash, hselect⟩ := prepare_ok hprepare
    obtain ⟨hnames, hparts⟩ := selectImage_foldlM hselect
    have hwritten := allOrNothing_stage lib env a images directory
    rw [hprepare] at hresult
    dsimp only at hresult
    revert hwritten hresult
    generalize transact _ directory = written
    rcases written with ⟨e | digests, after⟩
    · rintro rfl hunchanged
      exact hunchanged
    · rintro rfl ⟨hlength, hadded⟩
      refine ⟨a, images, _, harchive, rfl, hhash, hnames, ?_, hparts, hadded⟩
      rw [← hnames, length_map, hlength]

theorem extraction_all_or_nothing : (∀ lib decoders env file manifestHash names directory,
      AllOrNothing directory (fun _ => Payload.Extract.Extracted lib file manifestHash names directory)
        (Payload.Extract.extractImages lib decoders env file manifestHash names directory)) ∧
    ∀ lib env archive path reviewedHash names hashes directory, AllOrNothing directory
        (fun _ => Extracted lib archive path reviewedHash names
          (extractZipImages lib env archive path reviewedHash names hashes directory).2.1 directory)
        ((extractZipImages lib env archive path reviewedHash names hashes directory).1,
          (extractZipImages lib env archive path reviewedHash names hashes directory).2.2) :=
  ⟨Payload.Extract.extractImages_spec, fun lib env archive path reviewedHash names hashes directory =>
    extractZipImages_spec lib env archive path reviewedHash names hashes directory rfl⟩

end AeraRecovery.ImageZip.Extract
