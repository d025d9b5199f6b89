import AeraRecovery.Lib.Division
import AeraRecovery.TarBackup.Tree

namespace AeraRecovery.TarBackup

open Lib Bytes Division Listing List

/-- An entry of a list. The tree does not change, so what `lstat` will say of the file is kept with its name. -/
structure TarItem extends Item where
  threadId : Nat
  deriving DecidableEq

/-- A list with `Archive_Current_Size` and the number of the thread that takes what comes next. -/
structure Walk where
  list : List TarItem
  counter : Counter

def generateTarList (x : TWExclude) (target : Nat) : Bytes → Listing → Walk → Walk
  | _, .nil, s => s
  | path, .file name type size rest, s =>
    let fileName := join path name
    if type = .blk ∨ type = .chr ∨ x.checkSkipDirs fileName none then generateTarList x target path rest s
    else
      match type with
      | .reg => generateTarList x target path rest
          ⟨s.list ++ [⟨⟨fileName, .reg size⟩, s.counter.group⟩], advance target s.counter size⟩
      | .lnk => generateTarList x target path rest
          ⟨s.list ++ [⟨⟨fileName, .lnk⟩, s.counter.group⟩], advance target s.counter 0⟩
      | _ => generateTarList x target path rest s
  | path, .directory name identity contents rest, s =>
    let fileName := join path name
    if x.checkSkipDirs fileName (some identity) then generateTarList x target path rest s
    else generateTarList x target path rest
      (generateTarList x target fileName contents ⟨s.list ++ [⟨⟨fileName, .dir⟩, s.counter.group⟩], s.counter⟩)

/-- The mode bits of a block device look like those of a directory, which cannot be opened. -/
def FileType.folderSize : FileType → Nat → Nat
  | reg, size | lnk, size | chr, size | sock, size => size
  | blk, _ | fifo, _ => 0

def getFolderSize (x : TWExclude) : Bytes → Listing → Nat
  | _, .nil => 0
  | path, .file name type size rest =>
    (if x.checkSkipDirs (join path name) none then 0 else type.folderSize size) + getFolderSize x path rest
  | path, .directory name identity contents rest =>
    (if x.checkSkipDirs (join path name) (some identity) then 0 else getFolderSize x (join path name) contents) +
      getFolderSize x path rest

def Kind.size : Kind → Nat
  | reg size => size
  | lnk | dir => 0

variable (target : Nat)

def push (s : Walk) (item : Item) : Walk :=
  ⟨s.list ++ [⟨item, s.counter.group⟩], if item.kind = .dir then s.counter else advance target s.counter item.kind.size⟩

theorem generateTarList_eq_foldl (x : TWExclude) (target : Nat) (path : Bytes) (l : Listing) (s : Walk) :
    generateTarList x target path l s = (items x path l).foldl (push target) s := by
  induction l generalizing path s with
  | nil => rfl
  | file name type size rest ih =>
    cases hskip : x.checkSkipDirs (join path name) none with
    | true => cases type <;> simp [generateTarList, items, hskip, ih]
    | false => cases type <;> simp [generateTarList, items, hskip, ih, FileType.item, push, Kind.size]
  | directory name identity contents rest ihcontents ihrest =>
    rw [generateTarList, items, foldl_append]
    split_ifs with hskip
    · exact ihrest path s
    · rw [ihcontents, ihrest]
      rfl

variable (is : List Item)

def sizes : Nat := (is.map fun i => i.kind.size).sum

theorem sizes_append (is js : List Item) : sizes (is ++ js) = sizes is + sizes js := by
  rw [sizes, map_append, sum_append]
  rfl

theorem foldl_push_list (s : Walk) :
    (is.foldl (push target) s).list.map TarItem.toItem = s.list.map TarItem.toItem ++ is := by
  induction is generalizing s with
  | nil => rw [foldl_nil, append_nil]
  | cons i is ih =>
    rw [foldl_cons, ih, push, map_append, append_assoc]
    rfl

theorem weight_push (s : Walk) (i : Item) :
    (push target s i).counter.weight target ≤ s.counter.weight target + i.kind.size := by
  rw [push]
  split_ifs
  · exact Nat.le_add_right _ _
  · exact weight_advance target s.counter _

theorem weight_foldl_push (s : Walk) :
    (is.foldl (push target) s).counter.weight target ≤ s.counter.weight target + sizes is := by
  induction is generalizing s with
  | nil => exact le_rfl
  | cons i is ih =>
    have hstep := weight_push target s i
    have hsizes : sizes (i :: is) = i.kind.size + sizes is := by rw [sizes, map_cons, sum_cons, sizes]
    exact (ih _).trans (by omega)

structure Numbered (first : Nat) (s : Walk) : Prop where
  items : ∀ i ∈ s.list, first ≤ i.threadId ∧ i.threadId ≤ s.counter.group
  first : first ≤ s.counter.group

theorem Numbered.add {first : Nat} {s : Walk} (h : Numbered first s) (i : Item) {c : Counter}
    (hc : s.counter.group ≤ c.group) : Numbered first ⟨s.list ++ [⟨i, s.counter.group⟩], c⟩ := by
  refine ⟨fun j hj => ?_, h.first.trans hc⟩
  rcases mem_append.mp hj with hj | hj
  · exact ⟨(h.items j hj).1, (h.items j hj).2.trans hc⟩
  · rw [mem_singleton.mp hj]
    exact ⟨h.first, hc⟩

theorem numbered_foldl_push {first target : Nat} {s : Walk} (h : Numbered first s) (is : List Item) :
    Numbered first (is.foldl (push target) s) := by
  induction is generalizing s with
  | nil => exact h
  | cons i is ih =>
    refine ih (h.add i ?_)
    split_ifs
    · exact le_rfl
    · exact group_le_advance target s.counter _

theorem foldl_push_zero (s : Walk) : (is.foldl (push 0) s).counter.group = s.counter.group := by
  induction is generalizing s with
  | nil => rfl
  | cons i is ih =>
    rw [foldl_cons, ih, push]
    split_ifs
    · rfl
    · rw [advance_zero]

theorem sizes_items_le (x : TWExclude) (path : Bytes) (l : Listing) :
    sizes (items x path l) ≤ getFolderSize x path l := by
  induction l generalizing path with
  | nil => exact le_rfl
  | file name type size rest ih =>
    rw [items, getFolderSize, sizes_append]
    refine add_le_add ?_ (ih path)
    split_ifs
    · exact le_rfl
    · cases type <;> simp [FileType.item, FileType.folderSize, sizes, Kind.size]
  | directory name identity contents rest ihcontents ihrest =>
    rw [items, getFolderSize, sizes_append]
    refine add_le_add ?_ (ihrest path)
    split_ifs
    · exact le_rfl
    · have hcons : sizes (⟨join path name, .dir⟩ :: items x (join path name) contents) =
          sizes (items x (join path name) contents) := by simp [sizes, Kind.size]
      rw [hcons]
      exact ihcontents _

end AeraRecovery.TarBackup
