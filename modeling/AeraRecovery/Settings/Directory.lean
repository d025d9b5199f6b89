import AeraRecovery.Lib.Bytes
import AeraRecovery.Lib.Crash

namespace AeraRecovery.Settings.Directory

open Lib Bytes Crash Function

/-- The files of `kManagedAndroidSettingsFiles`. -/
inductive File
  | system
  | secure
  | global
  | lineage
  deriving DecidableEq

inductive Sidecar
  | wal
  | shm
  | journal
  deriving DecidableEq

/-- Every name the restore and the repair touch in Android's settings directory. -/
inductive Entry
  | live (f : File)
  | staged (f : File)
  | stagedTemporary (f : File)
  | previous (f : File)
  | marker
  | sidecar (s : Sidecar)
  deriving DecidableEq

def managedFiles : List File := [.system, .secure, .global, .lineage]

theorem mem_managedFiles (f : File) : f ∈ managedFiles := by cases f <;> decide

variable (e : Entry)

inductive Node
  | file (contents : Bytes)
  | folder
  deriving DecidableEq

abbrev Dir := Entry → Option Node

inductive Errno
  | enoent
  | eisdir
  | enotdir
  | enotempty
  deriving DecidableEq

/-- Directory calls return `none` for 0 and the value of `errno` otherwise. -/
abbrev Status := Option Errno

def unlinkat : Prog Dir Status :=
  mutate fun d => match d e with
    | none => (some .enoent, d)
    | some .folder => (some .eisdir, d)
    | some (.file _) => (none, update d e none)

def renameat (a b : Entry) : Prog Dir Status :=
  mutate fun d => match d a, d b with
    | none, _ => (some .enoent, d)
    | some (.file _), some .folder => (some .eisdir, d)
    | some .folder, some (.file _) => (some .enotdir, d)
    | some .folder, some .folder => (some .enotempty, d)
    | some n, _ => (none, update (update d a none) b (some n))

def createExclusive (ok : Bool) : Prog Dir Bool :=
  mutate fun d => match d e with
    | none => if ok then (true, update d e (some (.file []))) else (false, d)
    | some _ => (false, d)

def append (bytes : Bytes) : Prog Dir Unit :=
  mutate fun d => match d e with
    | some (.file c) => ((), update d e (some (.file (c ++ bytes))))
    | _ => ((), d)

def fstatat : Prog Dir (Except Errno Node) :=
  observe fun d => match d e with
    | none => .error .enoent
    | some n => .ok n

/-- `PathExists`: only a regular file counts. -/
def pathExists : Prog Dir Bool :=
  observe fun d => match d e with
    | some (.file _) => true
    | _ => false

/-- Nothing but regular files, as in a settings directory Android wrote. -/
def Regular (d : Dir) : Prop := ∀ e, d e ≠ some .folder

theorem regular_update {d : Dir} (h : Regular d) (e : Entry) {n : Option Node} (hn : n ≠ some .folder) :
    Regular (update d e n) := by
  intro e'
  by_cases he : e' = e
  · subst he; rwa [update_self]
  · rw [update_of_ne he]; exact h e'

section

variable {C : Dir → Prop} {d : Dir} {e a b : Entry} {α : Type}

variable {Q : Status → Dir → Prop}

theorem safe_unlinkat (hC : C d) (hd : Regular d) (habsent : d e = none → Q (some .enoent) d)
    (hpresent : d e ≠ none → Q none (update d e none)) : Safe C (unlinkat e) d Q := by
  apply safe_mutate hC
  cases h : d e with
  | none => simpa only [h] using habsent h
  | some n =>
    cases n with
    | file c => simpa only [h] using hpresent (by simp [h])
    | folder => exact absurd h (hd e)

theorem safe_unlinkat_ignored (hC : C d) (hd : Regular d)
    (h : ∀ status, Q status (update d e none)) : Safe C (unlinkat e) d Q := by
  refine safe_unlinkat hC hd ?_ fun _ => h none
  intro he
  have hu : update d e none = d := by rw [← he, update_eq_self]
  simpa only [hu] using h (some .enoent)

theorem safe_renameat (hC : C d) (hd : Regular d) (habsent : d a = none → Q (some .enoent) d)
    (hpresent : ∀ n, d a = some n → Q none (update (update d a none) b (some n))) : Safe C (renameat a b) d Q := by
  apply safe_mutate hC
  cases ha : d a with
  | none => simpa only [ha] using habsent ha
  | some n =>
    cases n with
    | folder => exact absurd ha (hd a)
    | file c =>
      cases hb : d b with
      | none => simpa only [ha, hb] using hpresent _ ha
      | some m =>
        cases m with
        | folder => exact absurd hb (hd b)
        | file c' => simpa only [ha, hb] using hpresent _ ha

theorem safe_createExclusive {Q : Bool → Dir → Prop} {ok : Bool} (hC : C d) (hrefused : Q false d)
    (hcreated : d e = none → Q true (update d e (some (.file [])))) : Safe C (createExclusive e ok) d Q := by
  apply safe_mutate hC
  cases h : d e with
  | none =>
    cases ok with
    | false => simpa only [h, Bool.false_eq_true, if_false] using hrefused
    | true => simpa only [h, if_true] using hcreated h
  | some n => simpa only [h] using hrefused

theorem safe_append {Q : Unit → Dir → Prop} {bytes c : Bytes} (hC : C d) (he : d e = some (.file c))
    (h : Q () (update d e (some (.file (c ++ bytes))))) : Safe C (append e bytes) d Q := by
  apply safe_mutate hC
  simpa only [he] using h

theorem safe_fstatat {Q : Except Errno Node → Dir → Prop} (habsent : d e = none → Q (.error .enoent) d)
    (hpresent : ∀ n, d e = some n → Q (.ok n) d) : Safe C (fstatat e) d Q := by
  apply safe_observe
  cases h : d e with
  | none => simpa only [h] using habsent h
  | some n => simpa only [h] using hpresent n h

theorem safe_pathExists {Q : Bool → Dir → Prop} (hd : Regular d) (h : Q (d e).isSome d) :
    Safe C (pathExists e) d Q := by
  apply safe_observe
  cases he : d e with
  | none => simpa only [he, Option.isSome_none] using h
  | some n =>
    cases n with
    | file c => simpa only [he, Option.isSome_some] using h
    | folder => exact absurd he (hd e)

end

end AeraRecovery.Settings.Directory
