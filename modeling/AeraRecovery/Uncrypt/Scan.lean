import AeraRecovery.Uncrypt.ProductBlockMap

namespace AeraRecovery.Uncrypt

open Lib Checks List Nat

theorem addBlockToRanges_numbers {ranges : List (Nat × Nat)} (hne : ∀ r ∈ ranges, r.1 < r.2) (b : Nat) :
    Ranges.numbers (addBlockToRanges ranges b) = Ranges.numbers ranges ++ [b] ∧
      ∀ r ∈ addBlockToRanges ranges b, r.1 < r.2 := by
  have hnew : Ranges.numbers (ranges ++ [(b, b + 1)]) = Ranges.numbers ranges ++ [b] ∧
      ∀ r ∈ ranges ++ [(b, b + 1)], r.1 < r.2 := by
    constructor
    · rw [Ranges.numbers_concat, Nat.add_sub_cancel_left, range'_one]
    · intro r hr
      rcases mem_append.mp hr with hr | hr
      · exact hne r hr
      · rw [mem_singleton.mp hr]
        exact lt_succ_self b
  rw [addBlockToRanges]
  split
  · next first last hlast =>
    split_ifs with heq
    · obtain ⟨init, rfl⟩ := getLast?_eq_some_iff.mp hlast
      have hr : first < last := hne (first, last) (mem_append_right _ (mem_singleton_self _))
      obtain ⟨n, hn⟩ : ∃ n, last - first = n := ⟨_, rfl⟩
      rw [dropLast_concat]
      constructor
      · have hlen : last + 1 - first = n + 1 := by omega
        rw [Ranges.numbers_concat, Ranges.numbers_concat, hlen, hn, range'_concat, append_assoc, heq]
        congr 3
        omega
      · intro r hr'
        rcases mem_append.mp hr' with hr' | hr'
        · exact hne r (mem_append_left _ hr')
        · rw [mem_singleton.mp hr']
          exact lt_succ_of_lt hr
    · exact hnew
  · exact hnew

namespace Job

variable (j : Job)

def blocks : Nat := (j.file.length - 1) / j.blksize + 1

/-- Block `i` of the file. The last one may be short. -/
def plain (i : Nat) : Bytes := j.file.slice (i * j.blksize) j.blksize

/-- What is written to the device for block `i`. A short block leaves in its buffer the end of an earlier one. -/
def image (i : Nat) : Bytes :=
  Bytes.overwrite (if 5 ≤ i then j.plain (i - 5) else replicate j.blksize 0) (j.plain i)

def written (device : Nat → UInt8) : Nat → Nat → UInt8
  | 0 => device
  | m + 1 => writeAtOffset (written device m) (j.blksize * j.fibmap m) (j.image m)

def runs : Nat → List (Nat × Nat)
  | 0 => []
  | m + 1 => addBlockToRanges (runs m) (j.fibmap m)

structure Mapped : Prop where
  file : 0 < j.file.length
  blksize : 0 < j.blksize
  fibmap : ∀ i < j.blocks, j.fibmap i ≠ 0

variable {j}

theorem runs_numbers (j : Job) (m : Nat) :
    Ranges.numbers (j.runs m) = (range m).map j.fibmap ∧ ∀ r ∈ j.runs m, r.1 < r.2 := by
  induction m with
  | zero => exact ⟨rfl, nofun⟩
  | succ m ih =>
    obtain ⟨hnumbers, hne⟩ := addBlockToRanges_numbers ih.2 (j.fibmap m)
    refine ⟨?_, hne⟩
    rw [runs, hnumbers, ih.1, range_succ, map_append, map_singleton]

theorem lt_blocks_iff (hj : j.Mapped) {k : Nat} : k < j.blocks ↔ k * j.blksize < j.file.length := by
  have := hj.file
  rw [blocks, Nat.lt_succ_iff, Nat.le_div_iff_mul_le hj.blksize]
  omega

theorem length_plain (j : Job) (i : Nat) : (j.plain i).length = min j.blksize (j.file.length - i * j.blksize) := by
  rw [plain, Bytes.slice, length_take, length_drop]

theorem length_plain_of_succ (hj : j.Mapped) {i : Nat} (hi : i + 1 < j.blocks) : (j.plain i).length = j.blksize := by
  rw [lt_blocks_iff hj, add_mul] at hi
  rw [length_plain]
  omega

theorem image_of_succ (hj : j.Mapped) {i : Nat} (hi : i + 1 < j.blocks) : j.image i = j.plain i := by
  have hlen := length_plain_of_succ hj hi
  rw [image, Bytes.overwrite, drop_of_length_le, append_nil]
  split_ifs with h5
  · rw [hlen, length_plain]
    omega
  · rw [hlen, length_replicate]

theorem length_image (hj : j.Mapped) {i : Nat} (hi : i < j.blocks) : (j.image i).length = j.blksize := by
  have hlen := length_plain j i
  have hold : (if 5 ≤ i then j.plain (i - 5) else replicate j.blksize 0).length = j.blksize := by
    split_ifs with h5
    · exact length_plain_of_succ hj (by omega)
    · exact length_replicate
  rw [image, Bytes.overwrite, length_append, length_drop, hold]
  omega

structure Reached (j : Job) (device : Nat → UInt8) (k : Nat) (s : Scan) : Prop where
  tail : s.tail = k % 5
  head : s.head = s.headBlock % 5
  window : s.headBlock ≤ k ∧ k ≤ s.headBlock + 4
  pos : s.pos = if j.encrypted then min (k * j.blksize) j.file.length else k * j.blksize
  ranges : s.ranges = j.runs s.headBlock
  slots : j.encrypted = true → s.buffers.length = 5
  buffers : j.encrypted = true → ∀ i < k, k ≤ i + 5 → s.buffers.getD (i % 5) [] = j.image i
  fresh : j.encrypted = true → ∀ c, k ≤ c → c < 5 → s.buffers.getD c [] = replicate j.blksize 0
  device : s.device = if j.encrypted then j.written device s.headBlock else device

variable {device : Nat → UInt8} {k : Nat} {s s' : Scan}

theorem findBlock_ok (hj : j.Mapped) {b n : Nat} (hb : b < j.blocks) (h : j.findBlock b = .ok n) : n = j.fibmap b := by
  rw [findBlock, bind_ok_iff] at h
  obtain ⟨-, -, h⟩ := h
  rw [if_neg (hj.fibmap b hb), pure_ok_iff] at h
  exact h.symm

theorem flushHead_reached (hj : j.Mapped) (hs : j.Reached device k s) (hk : k ≤ j.blocks) (hlt : s.headBlock < k)
    (h : j.flushHead s = .ok s') : j.Reached device k s' ∧ s'.headBlock = s.headBlock + 1 := by
  rw [flushHead, bind_ok_iff] at h
  obtain ⟨n, hn, h⟩ := h
  obtain rfl := findBlock_ok hj (by omega) hn
  have hwindow := hs.window
  have hhead : (s.head + 1) % 5 = (s.headBlock + 1) % 5 := by
    rw [hs.head]
    omega
  have hranges : addBlockToRanges s.ranges (j.fibmap s.headBlock) = j.runs (s.headBlock + 1) := by
    rw [hs.ranges, runs]
  split_ifs at h with henc
  · obtain ⟨-, -, h⟩ := bind_ok_iff.mp h
    obtain rfl := pure_ok_iff.mp h
    refine ⟨⟨hs.tail, hhead, ⟨hlt, ?_⟩, hs.pos, hranges, hs.slots, hs.buffers, hs.fresh, ?_⟩, rfl⟩
    · dsimp only
      omega
    · dsimp only
      rw [if_pos henc, written, hs.device, if_pos henc, hs.head, hs.buffers henc _ hlt (by omega)]
  · obtain rfl := pure_ok_iff.mp h
    refine ⟨⟨hs.tail, hhead, ⟨hlt, ?_⟩, hs.pos, hranges, hs.slots, hs.buffers, hs.fresh, ?_⟩, rfl⟩
    · dsimp only
      omega
    · dsimp only
      rw [if_neg henc, hs.device, if_neg henc]

theorem makeRoom_reached (hj : j.Mapped) (hs : j.Reached device k s) (hk : k ≤ j.blocks)
    (h : j.makeRoom s = .ok s') : j.Reached device k s' ∧ k ≤ s'.headBlock + 3 := by
  have hwindow := hs.window
  rw [makeRoom, hs.tail, hs.head] at h
  split_ifs at h with hfull
  · obtain ⟨hflushed, hhead⟩ := flushHead_reached hj hs hk (by omega) h
    exact ⟨hflushed, by omega⟩
  · obtain rfl := pure_ok_iff.mp h
    exact ⟨hs, by omega⟩

theorem slice_pos (hk : k * j.blksize < j.file.length) :
    j.file.slice (k * j.blksize) (min j.blksize (j.file.length - k * j.blksize)) = j.plain k := by
  rw [plain, Bytes.slice, Bytes.slice, take_eq_take_iff, length_drop]
  omega

section

variable (hj : j.Mapped) (hs : j.Reached device k s)

include hj hs

theorem overwritten_slot (hk : k < j.blocks) (henc : j.encrypted = true) :
    (s.buffers.getD s.tail []).overwrite (j.plain k) = j.image k := by
  rw [image, hs.tail]
  split_ifs with h5
  · have hslot : k % 5 = (k - 5) % 5 := by omega
    rw [hslot, hs.buffers henc (k - 5) (by omega) (by omega), image_of_succ hj (by omega)]
  · rw [hs.fresh henc (k % 5) (by omega) (by omega)]

theorem readTail_reached (hk : k < j.blocks) (hwindow : k ≤ s.headBlock + 3)
    (h : j.readTail s = .ok s') : j.Reached device (k + 1) s' := by
  have hlt := (lt_blocks_iff hj).mp hk
  have htail : (s.tail + 1) % 5 = (k + 1) % 5 := by
    rw [hs.tail]
    omega
  have hle := hs.window.1
  rw [readTail] at h
  split_ifs at h with henc
  · have hpos : s.pos = k * j.blksize := by
      rw [hs.pos, if_pos henc]
      omega
    dsimp only at h
    rw [hpos, slice_pos hlt, overwritten_slot hj hs hk henc] at h
    obtain ⟨-, -, h⟩ := bind_ok_iff.mp h
    obtain rfl := pure_ok_iff.mp h
    have hslots := hs.slots henc
    refine ⟨htail, hs.head, ⟨by dsimp only; omega, by dsimp only; omega⟩, ?_, hs.ranges,
      fun _ => ?_, fun _ i hi hrecent => ?_, fun _ c hc hc5 => ?_, hs.device⟩
    · dsimp only
      rw [if_pos henc, add_mul]
      omega
    · exact length_set.trans hslots
    · dsimp only
      rw [getD_eq_getElem?_getD, hs.tail]
      by_cases hik : i = k
      · subst hik
        rw [getElem?_set_self (by omega)]
        rfl
      · rw [getElem?_set_ne (by omega), ← getD_eq_getElem?_getD]
        exact hs.buffers henc i (by omega) (by omega)
    · dsimp only
      rw [getD_eq_getElem?_getD, hs.tail, getElem?_set_ne (by omega), ← getD_eq_getElem?_getD]
      exact hs.fresh henc c (by omega) hc5
  · obtain rfl := pure_ok_iff.mp h
    refine ⟨htail, hs.head, ⟨by dsimp only; omega, by dsimp only; omega⟩, ?_, hs.ranges,
      fun h => absurd h henc, fun h => absurd h henc, fun h => absurd h henc, hs.device⟩
    rw [if_neg henc, hs.pos, if_neg henc, add_mul, one_mul]

theorem pos_lt_iff : s.pos < j.file.length ↔ k < j.blocks := by
  rw [hs.pos, lt_blocks_iff hj]
  split_ifs
  · omega
  · rfl

end

theorem scanFile_reached (hj : j.Mapped) {fuel : Nat} (hs : j.Reached device k s) (hk : k ≤ j.blocks)
    (hfuel : j.blocks ≤ k + fuel) (h : j.scanFile fuel s = .ok s') : j.Reached device j.blocks s' := by
  induction fuel generalizing k s with
  | zero =>
    obtain rfl := pure_ok_iff.mp h
    obtain rfl : k = j.blocks := by omega
    exact hs
  | succ fuel ih =>
    rw [scanFile] at h
    split_ifs at h with hpos
    · have hlt := (pos_lt_iff hj hs).mp hpos
      obtain ⟨next, hnext, h⟩ := bind_ok_iff.mp h
      obtain ⟨after, hafter, h⟩ := bind_ok_iff.mp h
      obtain ⟨hroom, hwindow⟩ := makeRoom_reached hj hs hk hnext
      exact ih (readTail_reached hj hroom hlt hwindow hafter) hlt (by omega) h
    · obtain rfl := pure_ok_iff.mp h
      rw [pos_lt_iff hj hs] at hpos
      obtain rfl : k = j.blocks := by omega
      exact hs

theorem drain_reached (hj : j.Mapped) {fuel : Nat} (hs : j.Reached device j.blocks s)
    (hfuel : j.blocks ≤ s.headBlock + fuel) (h : j.drain fuel s = .ok s') :
    j.Reached device j.blocks s' ∧ s'.headBlock = j.blocks := by
  have hwindow := hs.window
  induction fuel generalizing s with
  | zero =>
    obtain rfl := pure_ok_iff.mp h
    exact ⟨hs, by omega⟩
  | succ fuel ih =>
    rw [drain] at h
    split_ifs at h with hne
    · rw [hs.head, hs.tail] at hne
      obtain ⟨next, hnext, h⟩ := bind_ok_iff.mp h
      obtain ⟨hflushed, hhead⟩ := flushHead_reached hj hs le_rfl (by omega) hnext
      exact ih hflushed (by omega) h hflushed.window
    · obtain rfl := pure_ok_iff.mp h
      rw [hs.head, hs.tail] at hne
      exact ⟨hs, by omega⟩

theorem reached_start (j : Job) (device : Nat → UInt8) : j.Reached device 0
      { buffers := if j.encrypted then replicate 5 (replicate j.blksize 0) else [], device } := by
  constructor
  · rfl
  · rfl
  · exact ⟨le_rfl, zero_le _⟩
  · dsimp only
    rw [zero_mul, zero_min]
    split_ifs <;> rfl
  · rfl
  · intro henc
    rw [if_pos henc, length_replicate]
  · exact fun _ i hi => absurd hi (not_lt_zero i)
  · intro henc c _ hc
    rw [if_pos henc, getD_replicate _ hc]
  · dsimp only
    split_ifs <;> rfl

theorem productBlockMap_ok (hj : j.Mapped) {leftover : Bytes} {out : Bytes × (Nat → UInt8)}
    (h : j.productBlockMap leftover device = .ok out) : out = (leftover.overwrite (j.mapText (j.runs j.blocks)),
      if j.encrypted then j.written device j.blocks else device) := by
  rw [productBlockMap] at h
  iterate 8 replace h := ok_of_ensure_bind h
  obtain ⟨s₁, hscan, h⟩ := bind_ok_iff.mp h
  obtain ⟨s₂, hdrain, h⟩ := bind_ok_iff.mp h
  -- the map is written and published
  replace h := ok_of_ensure_bind h
  obtain ⟨_, _, h⟩ := bind_ok_iff.mp h
  iterate 8 replace h := ok_of_ensure_bind h
  rw [pure_ok_iff] at h
  have hfuel : j.blocks ≤ 0 + j.file.length := by
    have := div_le_self (j.file.length - 1) j.blksize
    have := hj.file
    rw [blocks]
    omega
  have hreached := scanFile_reached hj (reached_start j device) (zero_le _) hfuel hscan
  obtain ⟨hlast, hblocks⟩ := drain_reached hj hreached (by have := hreached.window; omega) hdrain
  rw [← h, hlast.ranges, hlast.device, hblocks]

end Job

end AeraRecovery.Uncrypt
