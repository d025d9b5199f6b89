import AeraRecovery.BlockMap.Parse

namespace AeraRecovery.Sideload

open Lib List Option Function UInt64 Nat

inductive Errno
  | eio | enoent
  deriving DecidableEq

structure FuseData (Digest : Type) where
  fileSize : UInt64
  blockSize : UInt32
  fileBlocks : UInt32
  currBlock : UInt32
  blockData : Bytes
  hashes : List Digest

/-- What the provider does in one call: the bytes it leaves at the beginning of the buffer, and its result. -/
structure Answer where
  bytes : Bytes
  ok : Bool

structure Fetch where
  block : Nat
  data : Bytes
  ok : Bool

section

variable {Digest : Type} [DecidableEq Digest] (sha256 : Bytes → Digest) (zero : Digest) (fd : FuseData Digest)

variable (block : UInt64)

def fetchSize : UInt32 :=
  if block * fd.blockSize.toUInt64 + fd.blockSize.toUInt64 > fd.fileSize then
    (fd.fileSize - block * fd.blockSize.toUInt64).toUInt32
  else fd.blockSize

/-- The buffer after the call of the provider. The rest of the last block was cleared before. -/
def answered (a : Answer) : Bytes :=
  let size := (fetchSize fd block).toNat
  let cleared :=
    if size < fd.blockSize.toNat then fd.blockData.take size ++ replicate (fd.blockSize.toNat - size) 0
    else fd.blockData
  cleared.overwrite (a.bytes.take size)

def fetchBlock (a : Answer) :
    FuseData Digest × List Fetch × Except Errno Unit :=
  if block = fd.currBlock.toUInt64 then (fd, [], .ok ())
  else if block ≥ fd.fileBlocks.toUInt64 then
    ({ fd with blockData := replicate fd.blockSize.toNat 0, currBlock := block.toUInt32 }, [], .ok ())
  else
    let blockData := answered fd block a
    let fetch := ⟨block.toNat, blockData, a.ok⟩
    if a.ok = false then ({ fd with blockData }, [fetch], .error .eio)
    else
      let hash := sha256 blockData
      let blockhash := fd.hashes.getD block.toNat zero
      if hash = blockhash then ({ fd with blockData, currBlock := block.toUInt32 }, [fetch], .ok ())
      else if blockhash ≠ zero then ({ fd with blockData, currBlock := -1 }, [fetch], .error .eio)
      else
        ({ fd with blockData, currBlock := block.toUInt32, hashes := fd.hashes.set block.toNat hash }, [fetch], .ok ())

structure Request where
  nodeid : UInt64
  offset : UInt64
  size : UInt32
  first : Answer
  second : Answer

def packageFileId : UInt64 := 2

def handleRead (r : Request) : FuseData Digest × List Fetch × Except Errno Bytes :=
  if r.nodeid ≠ packageFileId then (fd, [], .error .enoent)
  else
    let block := (r.offset / fd.blockSize.toUInt64).toUInt32
    match fetchBlock sha256 zero fd block.toUInt64 r.first with
    | (fd, fetches, .error e) => (fd, fetches, .error e)
    | (fd, fetches, .ok ()) =>
      let blockOffset := (r.offset - (block * fd.blockSize).toUInt64).toUInt32
      if r.size + blockOffset ≤ fd.blockSize then
        (fd, fetches, .ok (fd.blockData.slice blockOffset.toNat r.size.toNat))
      else
        let extra := fd.blockData.slice blockOffset.toNat (fd.blockSize - blockOffset).toNat
        match fetchBlock sha256 zero fd (block + 1).toUInt64 r.second with
        | (fd, fetches', .error e) => (fd, fetches ++ fetches', .error e)
        | (fd, fetches', .ok ()) =>
          (fd, fetches ++ fetches', .ok (extra ++ fd.blockData.take (r.size - (fd.blockSize - blockOffset)).toNat))

/-- The file system after some requests, with the calls of the provider and the successful replies. -/
structure Served (Digest : Type) where
  fd : FuseData Digest
  fetches : List Fetch := []
  replies : List (UInt64 × Bytes) := []

def serve (s : Served Digest) (r : Request) : Served Digest :=
  let (fd, fetches, result) := handleRead sha256 zero s.fd r
  { fd, fetches := s.fetches ++ fetches, replies := s.replies ++ match result with
      | .ok data => [(r.offset, data)]
      | .error _ => [] }

def fileBlocks (fileSize : UInt64) (blockSize : UInt32) : UInt32 :=
  if fileSize = 0 then 0 else ((fileSize - 1) / blockSize.toUInt64 + 1).toUInt32

/-- The file system that `run_fuse_sideload` sets up. The buffer is not initialised. -/
def start (fileSize : UInt64) (blockSize : UInt32) (buffer : Bytes) : Option (Served Digest) :=
  if blockSize < 4096 ∨ blockSize > 4194304 then none
  else
    let fileBlocks := fileBlocks fileSize blockSize
    if fileBlocks > 262144 then none
    else
      some { fd := {
        fileSize, blockSize, fileBlocks, currBlock := -1, blockData := buffer,
        hashes := replicate fileBlocks.toNat zero } }

end

def pinned (fetches : List Fetch) (b : Nat) : Option Bytes :=
  (fetches.find? fun f => f.block = b && f.ok).map Fetch.data

variable {Digest : Type} {fd : FuseData Digest} {fetches fetches' : List Fetch} {b : Nat} {d : Bytes}

def content (fd : FuseData Digest) (fetches : List Fetch) (b : Nat) : Option Bytes :=
  if b < fd.fileBlocks.toNat then pinned fetches b else some (replicate fd.blockSize.toNat 0)

theorem pinned_append (fetches fetches' : List Fetch) (b : Nat) :
    pinned (fetches ++ fetches') b = (pinned fetches b).or (pinned fetches' b) := by
  rw [pinned, pinned, pinned, find?_append]
  cases fetches.find? _ <;> rfl

theorem pinned_append_of_some (h : pinned fetches b = some d) : pinned (fetches ++ fetches') b = some d := by
  rw [pinned_append, h]
  rfl

theorem content_append (h : content fd fetches b = some d) : content fd (fetches ++ fetches') b = some d := by
  rw [content] at h ⊢
  split_ifs at h ⊢
  · exact pinned_append_of_some h
  · exact h

theorem pinned_single (f : Fetch) : pinned [f] b = if f.block = b ∧ f.ok = true then some f.data else none := by
  by_cases h : f.block = b ∧ f.ok = true
  · rw [if_pos h, pinned, find?_cons_of_pos (by simp [h])]
    rfl
  · rw [if_neg h, pinned, find?_cons_of_neg (by simpa using h)]
    rfl

theorem pinned_concat_of_known {f : Fetch} (h : f.ok = false ∨ pinned fetches f.block ≠ none) :
    pinned (fetches ++ [f]) = pinned fetches := by
  funext b
  rw [pinned_append, pinned_single]
  split_ifs with hf
  · obtain ⟨rfl, hok⟩ := hf
    rcases h with hfail | hknown
    · rw [hok] at hfail
      cases hfail
    · obtain ⟨d, hd⟩ := ne_none_iff_exists'.mp hknown
      rw [hd]
      rfl
  · exact or_none

theorem pinned_concat_of_new {f : Fetch} (hok : f.ok = true) (h : pinned fetches f.block = none) :
    pinned (fetches ++ [f]) = update (pinned fetches) f.block (some f.data) := by
  funext b
  rw [pinned_append, pinned_single, update_apply]
  by_cases hb : b = f.block
  · rw [hb, h, if_pos rfl, if_pos ⟨rfl, hok⟩]
    rfl
  · rw [if_neg hb, if_neg fun hf => hb hf.1.symm, or_none]

structure Opened (fd : FuseData Digest) : Prop where
  small : fd.blockSize.toNat ≤ 2 ^ 22
  large : 0 < fd.blockSize.toNat
  blocks : fd.fileBlocks.toNat ≤ 2 ^ 18
  inside : ∀ b < fd.fileBlocks.toNat, b * fd.blockSize.toNat < fd.fileSize.toNat

structure Inv (sha256 : Bytes → Digest) (zero : Digest) (fd : FuseData Digest) (fetches : List Fetch) : Prop where
  opened : Opened fd
  size : fd.blockData.length = fd.blockSize.toNat
  count : fd.hashes.length = fd.fileBlocks.toNat
  hashes : ∀ b < fd.fileBlocks.toNat, fd.hashes.getD b zero = (pinned fetches b).elim zero sha256
  cached : fd.currBlock ≠ -1 → content fd fetches fd.currBlock.toNat = some fd.blockData
  shape : ∀ b < fd.fileBlocks.toNat, ∀ d, pinned fetches b = some d →
    d.length = fd.blockSize.toNat ∧ ∀ j, fd.fileSize.toNat ≤ b * fd.blockSize.toNat + j → d.getD j 0 = 0

variable {block : UInt64}

theorem fetchSize_eq (ho : Opened fd) (hblock : block.toNat < fd.fileBlocks.toNat) :
    (fetchSize fd block).toNat ≤ fd.blockSize.toNat ∧ ((fetchSize fd block).toNat < fd.blockSize.toNat ∧
          block.toNat * fd.blockSize.toNat + (fetchSize fd block).toNat = fd.fileSize.toNat ∨
        (fetchSize fd block).toNat = fd.blockSize.toNat ∧
          block.toNat * fd.blockSize.toNat + fd.blockSize.toNat ≤ fd.fileSize.toNat) := by
  have hsmall := ho.small
  have hinside := ho.inside _ hblock
  have hbound : block.toNat * fd.blockSize.toNat ≤ 2 ^ 18 * 2 ^ 22 :=
    Nat.mul_le_mul (hblock.le.trans ho.blocks) hsmall
  have hmul : (block * fd.blockSize.toUInt64).toNat = block.toNat * fd.blockSize.toNat := by
    rw [UInt64.toNat_mul, UInt32.toNat_toUInt64, mod_eq_of_lt (by omega)]
  have hadd : (block * fd.blockSize.toUInt64 + fd.blockSize.toUInt64).toNat =
      block.toNat * fd.blockSize.toNat + fd.blockSize.toNat := by
    rw [UInt64.toNat_add, hmul, UInt32.toNat_toUInt64, mod_eq_of_lt (by omega)]
  rw [fetchSize]
  split_ifs with hpartial
  · rw [gt_iff_lt, lt_iff_toNat_lt, hadd] at hpartial
    have hle : block * fd.blockSize.toUInt64 ≤ fd.fileSize := le_iff_toNat_le.mpr (by omega)
    have hsub : (fd.fileSize - block * fd.blockSize.toUInt64).toUInt32.toNat =
        fd.fileSize.toNat - block.toNat * fd.blockSize.toNat := by
      rw [UInt64.toNat_toUInt32, UInt64.toNat_sub_of_le _ _ hle, hmul, mod_eq_of_lt (by omega)]
    omega
  · rw [gt_iff_lt, lt_iff_toNat_lt, hadd] at hpartial
    omega

section

variable (ho : Opened fd) (hsize : fd.blockData.length = fd.blockSize.toNat)
  (hblock : block.toNat < fd.fileBlocks.toNat) (a : Answer)

include ho hsize hblock

theorem length_answered : (answered fd block a).length = fd.blockSize.toNat := by
  obtain ⟨hle, -⟩ := fetchSize_eq ho hblock
  rw [answered, Bytes.overwrite]
  split_ifs with hlt
  · simp only [length_append, length_take, length_drop, length_replicate, hsize]
    omega
  · simp only [length_append, length_take, length_drop, hsize]
    omega

theorem answered_beyond {j : Nat}
    (hj : fd.fileSize.toNat ≤ block.toNat * fd.blockSize.toNat + j) : (answered fd block a).getD j 0 = 0 := by
  obtain ⟨hle, hcases⟩ := fetchSize_eq ho hblock
  rcases hcases with ⟨hlt, heq⟩ | ⟨heq, hfull⟩
  · have htake := length_take_le (fetchSize fd block).toNat a.bytes
    rw [answered, if_pos hlt, Bytes.overwrite, getD_eq_getElem?_getD, getElem?_append_right (by omega),
      getElem?_drop, getElem?_append_right (by rw [length_take]; omega), getElem?_replicate]
    split_ifs
    · rfl
    · rfl
  · have hlen := length_answered ho hsize hblock a
    rw [getD_eq_getElem?_getD, getElem?_eq_none (by omega)]
    rfl

end

/-- A call of the provider that fails does not change a buffer that is still the cache of another block. -/
def Keeps (fd : FuseData Digest) (block : UInt64) (a : Answer) : Prop :=
  a.ok = false → block ≠ fd.currBlock.toUInt64 → block < fd.fileBlocks.toUInt64 →
    fd.currBlock = -1 ∨ answered fd block a = fd.blockData

structure Same (fd fd' : FuseData Digest) : Prop where
  fileSize : fd'.fileSize = fd.fileSize
  blockSize : fd'.blockSize = fd.blockSize
  fileBlocks : fd'.fileBlocks = fd.fileBlocks

theorem Same.trans {fd' fd'' : FuseData Digest} (h : Same fd fd') (h' : Same fd' fd'') : Same fd fd'' :=
  ⟨h'.fileSize.trans h.fileSize, h'.blockSize.trans h.blockSize, h'.fileBlocks.trans h.fileBlocks⟩

variable {fd' : FuseData Digest}

theorem Same.content (h : Same fd fd') (fetches : List Fetch) (b : Nat) :
    content fd' fetches b = content fd fetches b := by
  rw [Sideload.content, Sideload.content, h.fileBlocks, h.blockSize]

theorem Same.opened (h : Same fd fd') (ho : Opened fd) : Opened fd' := by
  constructor
  · rw [h.blockSize]
    exact ho.small
  · rw [h.blockSize]
    exact ho.large
  · rw [h.fileBlocks]
    exact ho.blocks
  · rw [h.fileBlocks, h.blockSize, h.fileSize]
    exact ho.inside

section

variable {sha256 : Bytes → Digest} {zero : Digest}

theorem Inv.same (hi : Inv sha256 zero fd fetches) (hsame : Same fd fd')
    (hhashes : fd'.hashes = fd.hashes) (hpinned : pinned fetches' = pinned fetches)
    (hsize : fd'.blockData.length = fd.blockSize.toNat)
    (hcached : fd'.currBlock ≠ -1 → content fd fetches fd'.currBlock.toNat = some fd'.blockData) :
    Inv sha256 zero fd' fetches' := by
  constructor
  · exact hsame.opened hi.opened
  · rw [hsame.blockSize, hsize]
  · rw [hhashes, hsame.fileBlocks, hi.count]
  · rw [hsame.fileBlocks, hhashes, hpinned]
    exact hi.hashes
  · intro hcurr
    rw [hsame.content, content, hpinned]
    exact hcached hcurr
  · rw [hsame.fileBlocks, hsame.blockSize, hsame.fileSize, hpinned]
    exact hi.shape

def Shows (fd : FuseData Digest) (fetches : List Fetch) (offset : Nat) (data : Bytes) : Prop :=
  ∀ i < data.length, ∃ d, content fd fetches ((offset + i) / fd.blockSize.toNat) = some d ∧
    data[i]? = d[(offset + i) % fd.blockSize.toNat]?

variable {data : Bytes} {offset : Nat}

theorem Shows.append (h : Shows fd fetches offset data) : Shows fd (fetches ++ fetches') offset data := by
  intro i hi
  obtain ⟨d, hd, hbyte⟩ := h i hi
  exact ⟨d, content_append hd, hbyte⟩

theorem shows_slice {k r n : Nat} (hk : content fd fetches k = some data)
    (hn : r + n ≤ fd.blockSize.toNat) : Shows fd fetches (k * fd.blockSize.toNat + r) (data.slice r n) := by
  intro i hi
  have hlt : i < n := by
    rw [Bytes.slice, length_take] at hi
    omega
  have hpos : 0 < fd.blockSize.toNat := by omega
  have hdiv : (k * fd.blockSize.toNat + r + i) / fd.blockSize.toNat = k := by
    rw [add_assoc, mul_comm, mul_add_div hpos, div_eq_of_lt (by omega), add_zero]
  have hmod : (k * fd.blockSize.toNat + r + i) % fd.blockSize.toNat = r + i := by
    rw [add_assoc, mul_comm, mul_add_mod, mod_eq_of_lt (by omega)]
  rw [hdiv, hmod, Bytes.slice, getElem?_take_of_lt hlt, getElem?_drop]
  exact ⟨data, hk, rfl⟩

theorem Shows.concat {data' : Bytes} (h : Shows fd fetches offset data)
    (h' : Shows fd fetches (offset + data.length) data') : Shows fd fetches offset (data ++ data') := by
  intro i hi
  rw [length_append] at hi
  by_cases hlt : i < data.length
  · rw [getElem?_append_left hlt]
    exact h i hlt
  · obtain ⟨d, hd, hbyte⟩ := h' (i - data.length) (by omega)
    rw [getElem?_append_right (by omega)]
    rw [add_assoc, Nat.add_sub_cancel' (by omega)] at hd hbyte
    exact ⟨d, hd, hbyte⟩

theorem Shows.beyond (hi : Inv sha256 zero fd fetches)
    (h : Shows fd fetches offset data) {i : Nat} (hlt : i < data.length) (hend : fd.fileSize.toNat ≤ offset + i) :
    data[i]? = some 0 := by
  obtain ⟨d, hd, hbyte⟩ := h i hlt
  rw [getElem?_eq_getElem hlt] at hbyte ⊢
  rw [content] at hd
  split_ifs at hd with hblock
  · have hzero := (hi.shape _ hblock d hd).2 ((offset + i) % fd.blockSize.toNat) (by rwa [div_add_mod'])
    rw [getD_eq_getElem?_getD, ← hbyte] at hzero
    exact congrArg some hzero
  · cases hd
    rw [getElem?_replicate] at hbyte
    split_ifs at hbyte
    exact hbyte

theorem Shows.source (h : Shows fd fetches offset data) {i : Nat} (hlt : i < data.length) :
    fd.fileBlocks.toNat ≤ (offset + i) / fd.blockSize.toNat ∧ data[i]? = some 0 ∨
      ∃ f, fetches.find? (fun f => f.block = (offset + i) / fd.blockSize.toNat && f.ok) = some f ∧
        data[i]? = f.data[(offset + i) % fd.blockSize.toNat]? := by
  obtain ⟨d, hd, hbyte⟩ := h i hlt
  rw [content] at hd
  split_ifs at hd with hblock
  · obtain ⟨f, hf, rfl⟩ := map_eq_some_iff.mp hd
    exact .inr ⟨f, hf, hbyte⟩
  · cases hd
    rw [getElem?_eq_getElem hlt, getElem?_replicate] at hbyte
    split_ifs at hbyte
    rw [getElem?_eq_getElem hlt]
    exact .inl ⟨not_lt.mp hblock, hbyte⟩

structure Pinned (sha256 : Bytes → Digest) (zero : Digest) (s : Served Digest) : Prop where
  inv : Inv sha256 zero s.fd s.fetches
  replies : ∀ reply ∈ s.replies, Shows s.fd s.fetches reply.1.toNat reply.2

theorem fileBlocks_inside {fileSize : UInt64} {blockSize : UInt32} (hpos : 0 < blockSize.toNat) {b : Nat}
    (hb : b < (fileBlocks fileSize blockSize).toNat) : b * blockSize.toNat < fileSize.toNat := by
  rw [fileBlocks] at hb
  split_ifs at hb with hzero
  · exact absurd hb (not_lt_zero b)
  · have hsize : 0 < fileSize.toNat := pos_of_ne_zero fun h => hzero (UInt64.toNat_inj.mp h)
    rw [UInt64.toNat_toUInt32, BlockMap.toNat_blocks hzero] at hb
    have hblock : b ≤ (fileSize.toNat - 1) / blockSize.toNat := by
      have := mod_le ((fileSize.toNat - 1) / blockSize.toNat + 1) (2 ^ 32)
      omega
    have := (le_div_iff_mul_le hpos).mp hblock
    omega

variable {s : Served Digest}

theorem start_pinned (sha256 : Bytes → Digest) {fileSize : UInt64} {blockSize : UInt32} {buffer : Bytes}
    (hbuffer : buffer.length = blockSize.toNat) (h : start zero fileSize blockSize buffer = some s) :
    Pinned sha256 zero s ∧ s.fd.blockSize = blockSize ∧ s.fd.fileSize = fileSize := by
  rw [start] at h
  dsimp only at h
  split_ifs at h with hsize hblocks
  cases h
  rw [not_or, UInt32.not_lt, gt_iff_lt, UInt32.not_lt, UInt32.le_iff_toNat_le, UInt32.le_iff_toNat_le] at hsize
  rw [gt_iff_lt, UInt32.not_lt, UInt32.le_iff_toNat_le] at hblocks
  have hpos : 0 < blockSize.toNat := lt_of_lt_of_le (by decide) hsize.1
  refine ⟨⟨⟨⟨hsize.2, hpos, hblocks, fun b hb => fileBlocks_inside hpos hb⟩, hbuffer, length_replicate, ?_,
    fun hcurr => absurd rfl hcurr, nofun⟩, nofun⟩, rfl, rfl⟩
  intro b hb
  rw [getD_replicate _ hb]
  rfl

theorem toNat_blockOffset {offset : UInt64} {size : UInt32} (hsmall : size.toNat ≤ 2 ^ 22)
    (hpos : 0 < size.toNat) (hfirst : offset.toNat / size.toNat < 2 ^ 32) :
    (offset - ((offset / size.toUInt64).toUInt32 * size).toUInt64).toUInt32.toNat = offset.toNat % size.toNat := by
  have hdiv : (offset / size.toUInt64).toUInt32.toNat = offset.toNat / size.toNat := by
    rw [UInt64.toNat_toUInt32, UInt64.toNat_div, UInt32.toNat_toUInt64, mod_eq_of_lt hfirst]
  have heq := div_add_mod' offset.toNat size.toNat
  have hlt := mod_lt offset.toNat hpos
  rw [UInt64.toNat_toUInt32, UInt64.toNat_sub, UInt32.toNat_toUInt64, UInt32.toNat_mul, hdiv]
  generalize offset.toNat / size.toNat * size.toNat = m at heq
  omega

variable [DecidableEq Digest]

theorem fetchBlock_spec (hinj : Injective sha256) (hzero : ∀ d, sha256 d ≠ zero)
    (hi : Inv sha256 zero fd fetches) {block : UInt64} {a : Answer} (hblock : block.toNat < 2 ^ 32 - 1)
    (hkeep : Keeps fd block a) {fetched : List Fetch} {result : Except Errno Unit}
    (h : fetchBlock sha256 zero fd block a = (fd', fetched, result)) :
    Inv sha256 zero fd' (fetches ++ fetched) ∧ Same fd fd' ∧
      (result = .ok () → content fd (fetches ++ fetched) block.toNat = some fd'.blockData) := by
  have h32 : block.toUInt32.toNat = block.toNat := by
    rw [UInt64.toNat_toUInt32, mod_eq_of_lt (by omega)]
  rw [fetchBlock] at h
  dsimp only at h
  split_ifs at h with hcurr hend hfail hmatch hdiffer
  · cases h
    rw [append_nil]
    refine ⟨hi, ⟨rfl, rfl, rfl⟩, fun _ => ?_⟩
    have hnat : block.toNat = fd.currBlock.toNat := by rw [hcurr, UInt32.toNat_toUInt64]
    rw [hnat]
    refine hi.cached fun hnone => ?_
    rw [hnone] at hnat
    exact absurd hnat (Nat.ne_of_lt hblock)
  · cases h
    rw [append_nil]
    have hge : ¬ block.toNat < fd.fileBlocks.toNat := by
      rw [ge_iff_le, le_iff_toNat_le, UInt32.toNat_toUInt64] at hend
      omega
    have hcontent : content fd fetches block.toNat = some (replicate fd.blockSize.toNat 0) := by
      rw [content, if_neg hge]
    refine ⟨hi.same ⟨rfl, rfl, rfl⟩ rfl rfl length_replicate fun _ => ?_, ⟨rfl, rfl, rfl⟩, fun _ => hcontent⟩
    rw [h32, hcontent]
  all_goals
    have hlt : block < fd.fileBlocks.toUInt64 := UInt64.not_le.mp hend
    have hnat : block.toNat < fd.fileBlocks.toNat := by
      rwa [lt_iff_toNat_lt, UInt32.toNat_toUInt64] at hlt
    have hlen := length_answered hi.opened hi.size hnat a
    have hhash := hi.hashes _ hnat
  · cases h
    have hpinned : pinned (fetches ++ [⟨block.toNat, answered fd block a, a.ok⟩]) = pinned fetches :=
      pinned_concat_of_known (.inl hfail)
    refine ⟨hi.same ⟨rfl, rfl, rfl⟩ rfl hpinned hlen fun hcached => ?_, ⟨rfl, rfl, rfl⟩, nofun⟩
    rcases hkeep hfail hcurr hlt with hnone | hsame
    · exact absurd hnone hcached
    · dsimp only
      rw [hsame]
      exact hi.cached hcached
  · cases h
    have hknown : pinned fetches block.toNat = some (answered fd block a) := by
      cases hp : pinned fetches block.toNat with
      | some d =>
        rw [hp] at hhash
        rw [hinj (hmatch.trans hhash)]
      | none =>
        rw [hp] at hhash
        exact absurd (hmatch.trans hhash) (hzero _)
    have hpinned := pinned_concat_of_known (f := ⟨block.toNat, answered fd block a, a.ok⟩)
      (.inr (hknown ▸ some_ne_none _))
    have hcontent : content fd fetches block.toNat = some (answered fd block a) := by
      rw [content, if_pos hnat, hknown]
    refine ⟨hi.same ⟨rfl, rfl, rfl⟩ rfl hpinned hlen fun _ => ?_, ⟨rfl, rfl, rfl⟩, fun _ => content_append hcontent⟩
    rw [h32, hcontent]
  · cases h
    have hknown : pinned fetches block.toNat ≠ none := by
      intro hp
      rw [hp] at hhash
      exact hdiffer hhash
    have hpinned := pinned_concat_of_known (f := ⟨block.toNat, answered fd block a, a.ok⟩) (.inr hknown)
    exact ⟨hi.same ⟨rfl, rfl, rfl⟩ rfl hpinned hlen fun hcached => absurd rfl hcached, ⟨rfl, rfl, rfl⟩, nofun⟩
  · cases h
    have hnew : pinned fetches block.toNat = none := by
      cases hp : pinned fetches block.toNat with
      | none => rfl
      | some d =>
        rw [hp] at hhash
        exact absurd (hhash.symm.trans (not_not.mp hdiffer)) (hzero d)
    have hpinned := pinned_concat_of_new (f := ⟨block.toNat, answered fd block a, a.ok⟩)
      ((Bool.not_eq_false _).mp hfail) hnew
    have hcontent : content fd (fetches ++ [⟨block.toNat, answered fd block a, a.ok⟩]) block.toNat =
        some (answered fd block a) := by
      rw [content, if_pos hnat, hpinned, update_self]
    refine ⟨⟨⟨hi.opened.small, hi.opened.large, hi.opened.blocks, hi.opened.inside⟩, hlen, ?_, ?_, ?_, ?_⟩,
      ⟨rfl, rfl, rfl⟩, fun _ => hcontent⟩
    · exact length_set.trans hi.count
    · intro b hb
      rw [hpinned, getD_eq_getElem?_getD]
      by_cases hbb : b = block.toNat
      · subst hbb
        rw [update_self, getElem?_set_self (hi.count ▸ hb)]
        rfl
      · rw [update_of_ne hbb, getElem?_set_ne (Ne.symm hbb), ← getD_eq_getElem?_getD]
        exact hi.hashes b hb
    · intro _
      rw [h32]
      exact hcontent
    · intro b hb d hd
      rw [hpinned, update_apply] at hd
      split_ifs at hd with hbb
      · cases hd
        subst hbb
        exact ⟨hlen, fun j hj => answered_beyond hi.opened hi.size hnat a hj⟩
      · exact hi.shape b hb d hd

/-- A request for blocks whose numbers fit, and calls of the provider that keep the cache. -/
structure Safe (sha256 : Bytes → Digest) (zero : Digest) (fd : FuseData Digest) (r : Request) : Prop where
  first : r.offset.toNat / fd.blockSize.toNat < 2 ^ 32 - 1
  keepsFirst : Keeps fd (r.offset / fd.blockSize.toUInt64) r.first
  second : fd.blockSize.toNat < r.offset.toNat % fd.blockSize.toNat + r.size.toNat →
    r.offset.toNat / fd.blockSize.toNat + 1 < 2 ^ 32 - 1
  keepsSecond : fd.blockSize.toNat < r.offset.toNat % fd.blockSize.toNat + r.size.toNat →
    Keeps (fetchBlock sha256 zero fd (r.offset / fd.blockSize.toUInt64) r.first).1
      (r.offset / fd.blockSize.toUInt64 + 1) r.second

theorem handleRead_spec (hinj : Injective sha256) (hzero : ∀ d, sha256 d ≠ zero)
    (hi : Inv sha256 zero fd fetches) {r : Request} (hsize : r.size.toNat ≤ fd.blockSize.toNat)
    (hsafe : r.nodeid = packageFileId → Safe sha256 zero fd r) {fetched : List Fetch}
    {result : Except Errno Bytes} (h : handleRead sha256 zero fd r = (fd', fetched, result)) :
    Inv sha256 zero fd' (fetches ++ fetched) ∧ Same fd fd' ∧
      ∀ data, result = .ok data → Shows fd (fetches ++ fetched) r.offset.toNat data := by
  rw [handleRead] at h
  split_ifs at h with hnode
  · cases h
    rw [append_nil]
    exact ⟨hi, ⟨rfl, rfl, rfl⟩, nofun⟩
  · have hs := hsafe (not_not.mp hnode)
    have hsmall := hi.opened.small
    have hpos := hi.opened.large
    have hdiv : (r.offset / fd.blockSize.toUInt64).toNat = r.offset.toNat / fd.blockSize.toNat := by
      rw [UInt64.toNat_div, UInt32.toNat_toUInt64]
    have hfirst := hs.first
    have hblock : (r.offset / fd.blockSize.toUInt64).toUInt32.toUInt64 = r.offset / fd.blockSize.toUInt64 := by
      rw [← UInt64.toNat_inj, UInt32.toNat_toUInt64, UInt64.toNat_toUInt32, hdiv, mod_eq_of_lt (by omega)]
    dsimp only at h
    rw [hblock] at h
    rcases hfetch : fetchBlock sha256 zero fd (r.offset / fd.blockSize.toUInt64) r.first with ⟨fd₁, fetches₁, e | _⟩
    all_goals
      obtain ⟨hinv, hsame, hcontent⟩ :=
        fetchBlock_spec hinj hzero hi (by rw [hdiv]; exact hs.first) hs.keepsFirst hfetch
      rw [hfetch] at h
    · cases h
      exact ⟨hinv, hsame, nofun⟩
    · have hcontent := hcontent rfl
      dsimp only at h
      have hoffset := toNat_blockOffset hsmall hpos (by omega : r.offset.toNat / fd.blockSize.toNat < 2 ^ 32)
      have hmod := mod_lt r.offset.toNat hpos
      have hpart := div_add_mod' r.offset.toNat fd.blockSize.toNat
      rw [hsame.blockSize] at h
      generalize (r.offset - ((r.offset / fd.blockSize.toUInt64).toUInt32 * fd.blockSize).toUInt64).toUInt32 =
        blockOffset at h hoffset
      have hsum : (r.size + blockOffset).toNat = r.size.toNat + blockOffset.toNat := by
        rw [UInt32.toNat_add, mod_eq_of_lt (by omega)]
      have hrest : (fd.blockSize - blockOffset).toNat = fd.blockSize.toNat - blockOffset.toNat :=
        UInt32.toNat_sub_of_le _ _ (UInt32.le_iff_toNat_le.mpr (by omega))
      have hshows : ∀ {n : Nat}, blockOffset.toNat + n ≤ fd.blockSize.toNat →
          Shows fd (fetches ++ fetches₁) r.offset.toNat (fd₁.blockData.slice blockOffset.toNat n) := by
        intro n hn
        rw [← hoffset] at hpart
        exact hpart ▸ shows_slice hcontent hn
      split_ifs at h with hfits
      · cases h
        rw [UInt32.le_iff_toNat_le, hsum] at hfits
        refine ⟨hinv, hsame, ?_⟩
        rintro _ ⟨⟩
        exact hshows (by omega)
      · rw [UInt32.le_iff_toNat_le, hsum] at hfits
        have hsecond := hs.second (by omega)
        have hkeeps := hs.keepsSecond (by omega)
        rw [hfetch] at hkeeps
        have hnext : ((r.offset / fd.blockSize.toUInt64).toUInt32 + 1).toUInt64 =
            r.offset / fd.blockSize.toUInt64 + 1 := by
          rw [← UInt64.toNat_inj, UInt32.toNat_toUInt64, UInt32.toNat_add, UInt64.toNat_toUInt32, hdiv,
            UInt64.toNat_add, hdiv, UInt32.toNat_one, UInt64.toNat_one]
          omega
        have hnat : (r.offset / fd.blockSize.toUInt64 + 1).toNat = r.offset.toNat / fd.blockSize.toNat + 1 := by
          rw [UInt64.toNat_add, hdiv, UInt64.toNat_one]
          omega
        rw [hnext] at h
        rcases hfetch' : fetchBlock sha256 zero fd₁ (r.offset / fd.blockSize.toUInt64 + 1) r.second with
          ⟨fd₂, fetches₂, e | _⟩
        all_goals
          obtain ⟨hinv', hsame', hcontent'⟩ :=
            fetchBlock_spec hinj hzero hinv (by rw [hnat]; exact hsecond) hkeeps hfetch'
          rw [hfetch'] at h
          cases h
          rw [← append_assoc]
        · exact ⟨hinv', hsame.trans hsame', nofun⟩
        · have hcontent' := hcontent' rfl
          rw [hnat, hsame.content] at hcontent'
          refine ⟨hinv', hsame.trans hsame', ?_⟩
          rintro _ ⟨⟩
          have hbs : fd'.blockSize = fd.blockSize := hsame'.blockSize.trans hsame.blockSize
          have hleft : (r.size - (fd'.blockSize - blockOffset)).toNat =
              r.size.toNat - (fd.blockSize.toNat - blockOffset.toNat) := by
            rw [hbs, UInt32.toNat_sub_of_le _ _ (UInt32.le_iff_toNat_le.mpr (by omega)), hrest]
          have hlen : (fd₁.blockData.slice blockOffset.toNat (fd.blockSize - blockOffset).toNat).length =
              fd.blockSize.toNat - blockOffset.toNat := by
            rw [Bytes.slice, length_take, length_drop, hinv.size, hsame.blockSize, hrest]
            omega
          refine Shows.concat (hshows (by omega)).append ?_
          have hblock₂ := shows_slice (r := 0) (n := r.size.toNat - (fd.blockSize.toNat - blockOffset.toNat))
            hcontent' (by omega)
          have hplace : (r.offset.toNat / fd.blockSize.toNat + 1) * fd.blockSize.toNat + 0 =
              r.offset.toNat + (fd.blockSize.toNat - blockOffset.toNat) := by
            rw [add_mul]
            omega
          rw [hlen, hleft, ← hplace]
          exact hblock₂

theorem serve_pinned (hinj : Injective sha256) (hzero : ∀ d, sha256 d ≠ zero)
    {r : Request} (hs : Pinned sha256 zero s) (hsize : r.size.toNat ≤ s.fd.blockSize.toNat)
    (hsafe : r.nodeid = packageFileId → Safe sha256 zero s.fd r) :
    Pinned sha256 zero (serve sha256 zero s r) ∧ Same s.fd (serve sha256 zero s r).fd := by
  rcases h : handleRead sha256 zero s.fd r with ⟨fd', fetched, result⟩
  obtain ⟨hinv, hsame, hdata⟩ := handleRead_spec hinj hzero hs.inv hsize hsafe h
  rw [serve, h]
  refine ⟨⟨hinv, fun reply hreply => ?_⟩, hsame⟩
  have hshows : Shows s.fd (s.fetches ++ fetched) reply.1.toNat reply.2 := by
    rcases mem_append.mp hreply with hold | hnew
    · exact (hs.replies reply hold).append
    · cases result with
      | error e => cases hnew
      | ok data =>
        obtain rfl := mem_singleton.mp hnew
        exact hdata data rfl
  intro i hi
  obtain ⟨d, hd, hbyte⟩ := hshows i hi
  rw [hsame.blockSize]
  exact ⟨d, (hsame.content _ _).trans hd, hbyte⟩

/-- A run whose requests are for at most one block and meet the condition. -/
def SafeRun (sha256 : Bytes → Digest) (zero : Digest) : Served Digest → List Request → Prop
  | _, [] => True
  | s, r :: rs => (r.nodeid = packageFileId → Safe sha256 zero s.fd r) ∧ SafeRun sha256 zero (serve sha256 zero s r) rs

theorem run_pinned (hinj : Injective sha256) (hzero : ∀ d, sha256 d ≠ zero) {requests : List Request}
    (hs : Pinned sha256 zero s) (hsize : ∀ r ∈ requests, r.size.toNat ≤ s.fd.blockSize.toNat)
    (hsafe : SafeRun sha256 zero s requests) :
    Pinned sha256 zero (requests.foldl (serve sha256 zero) s) ∧ Same s.fd (requests.foldl (serve sha256 zero) s).fd := by
  induction requests generalizing s with
  | nil => exact ⟨hs, rfl, rfl, rfl⟩
  | cons r rs ih =>
    rw [forall_mem_cons] at hsize
    obtain ⟨hfirst, hrest⟩ := hsafe
    obtain ⟨hnext, hsame⟩ := serve_pinned hinj hzero hs hsize.1 hfirst
    obtain ⟨hlast, hsame'⟩ := ih hnext (fun r' hr' => by rw [hsame.blockSize]; exact hsize.2 r' hr') hrest
    exact ⟨hlast, hsame.trans hsame'⟩

end

/-- In a run in which the provider keeps the cache, all replies agree, are zero beyond the end of the file, and hold
what the first successful call for each block brought. -/
theorem replies_pinned {Digest : Type} [DecidableEq Digest] (sha256 : Bytes → Digest) (zero : Digest)
    (hinj : Injective sha256) (hzero : ∀ d, sha256 d ≠ zero) (fileSize : UInt64) (blockSize : UInt32)
    (buffer : Bytes) (hbuffer : buffer.length = blockSize.toNat) (s₀ s : Served Digest)
    (hstart : start zero fileSize blockSize buffer = some s₀) (requests : List Request)
    (hsize : ∀ r ∈ requests, r.size ≤ blockSize) (hsafe : SafeRun sha256 zero s₀ requests)
    (hrun : requests.foldl (serve sha256 zero) s₀ = s) :
    (∀ reply ∈ s.replies, ∀ reply' ∈ s.replies, ∀ i < reply.2.length, ∀ i' < reply'.2.length,
      reply.1.toNat + i = reply'.1.toNat + i' → reply.2[i]? = reply'.2[i']?) ∧
    (∀ reply ∈ s.replies, ∀ i < reply.2.length, fileSize.toNat ≤ reply.1.toNat + i → reply.2[i]? = some 0) ∧
    (∀ reply ∈ s.replies, ∀ i < reply.2.length,
      s.fd.fileBlocks.toNat ≤ (reply.1.toNat + i) / blockSize.toNat ∧ reply.2[i]? = some 0 ∨
      ∃ f, s.fetches.find? (fun f => f.block = (reply.1.toNat + i) / blockSize.toNat && f.ok) = some f ∧
        reply.2[i]? = f.data[(reply.1.toNat + i) % blockSize.toNat]?) := by
  obtain ⟨hs₀, hblockSize, hfileSize⟩ := start_pinned sha256 hbuffer hstart
  have hsmall : ∀ r ∈ requests, r.size.toNat ≤ s₀.fd.blockSize.toNat := by
    intro r hr
    rw [hblockSize]
    exact UInt32.le_iff_toNat_le.mp (hsize r hr)
  obtain ⟨hs, hsame⟩ := run_pinned hinj hzero hs₀ hsmall hsafe
  rw [hrun] at hs hsame
  rw [← hsame.blockSize] at hblockSize
  rw [← hsame.fileSize] at hfileSize
  refine ⟨fun reply hreply reply' hreply' i hi i' hi' heq => ?_, fun reply hreply i hi hend => ?_,
    fun reply hreply i hi => ?_⟩
  · obtain ⟨d, hd, hbyte⟩ := hs.replies reply hreply i hi
    obtain ⟨d', hd', hbyte'⟩ := hs.replies reply' hreply' i' hi'
    rw [heq, hd', some_inj] at hd
    rw [hbyte, hbyte', heq, hd]
  · exact (hs.replies reply hreply).beyond hs.inv hi (by rwa [hfileSize])
  · rw [← hblockSize]
    exact (hs.replies reply hreply).source hi

def readByte (offset : UInt64) (first : Answer) : Request := ⟨packageFileId, offset, 1, first, ⟨[], true⟩⟩

/-- The call for the second block fails while nothing is in the cache, and the first byte is read twice. -/
def readTwice : List Request :=
  [readByte 4096 ⟨[9], false⟩, readByte 0 ⟨replicate 4096 1, true⟩, readByte 0 ⟨[], true⟩]

theorem replies_pinned_readByte : ∃ s₀ s : Served (Option Bytes), start none 8192 4096 (replicate 4096 0) = some s₀ ∧
      readTwice.foldl (serve some none) s₀ = s ∧ s.replies = [(0, [1]), (0, [1])] ∧
      ∃ f, s.fetches.find? (fun f => f.block = 0 && f.ok) = some f ∧ f.data[0]? = some 1 := by
  have hinj : Injective (some : Bytes → Option Bytes) := some_injective _
  have hsafe : ∀ s₀ : Served (Option Bytes), start none 8192 4096 (replicate 4096 0) = some s₀ →
      SafeRun some none s₀ readTwice := by
    rintro s₀ ⟨⟩
    exact ⟨fun _ => ⟨by decide, fun _ _ _ => .inl rfl, fun h => absurd h (by decide), fun h => absurd h (by decide)⟩,
      fun _ => ⟨by decide, nofun, fun h => absurd h (by decide), fun h => absurd h (by decide)⟩,
      fun _ => ⟨by decide, nofun, fun h => absurd h (by decide), fun h => absurd h (by decide)⟩, trivial⟩
  obtain ⟨s₀, hstart⟩ : ∃ s₀ : Served (Option Bytes), start none 8192 4096 (replicate 4096 0) = some s₀ :=
    ⟨_, rfl⟩
  have hreplies : (readTwice.foldl (serve some none) s₀).replies = [(0, [1]), (0, [1])] := by
    cases hstart
    rfl
  have hsource := (replies_pinned some none hinj (fun _ => some_ne_none _) 8192 4096 (replicate 4096 0)
    length_replicate s₀ _ hstart readTwice (by simp only [readTwice, forall_mem_cons]; decide) (hsafe s₀ hstart) rfl).2.2
    (0, [1]) (by rw [hreplies]; exact mem_cons_self) 0 (by decide)
  refine ⟨s₀, _, hstart, rfl, hreplies, ?_⟩
  rcases hsource with ⟨-, hzero⟩ | hfetch
  · exact absurd hzero (by decide)
  · obtain ⟨f, hf, hbyte⟩ := hfetch
    exact ⟨f, hf, hbyte.symm⟩

/-- The provider overwrites the buffer and fails for the second block, and the first block is read from the cache. -/
theorem replies_differ_after_failed_fetch :
    ∃ s₀ : Served (Option Bytes), start none 8192 4096 (replicate 4096 0) = some s₀ ∧
      ([readByte 0 ⟨replicate 4096 1, true⟩, readByte 4096 ⟨[9], false⟩, readByte 0 ⟨[], true⟩].foldl
        (serve some none) s₀).replies = [(0, [1]), (0, [9])] :=
  ⟨_, rfl, rfl⟩

end AeraRecovery.Sideload
