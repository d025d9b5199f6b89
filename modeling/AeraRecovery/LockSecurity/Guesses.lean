import AeraRecovery.LockSecurity.Authority

namespace AeraRecovery.LockSecurity

open Lib Bytes Steps List Option Finset Nat

/-- The waiting time after the failure number `k`, in milliseconds. -/
def delay (k : Nat) : Nat := if k < 5 then 1000 else min 300000 (30000 * 2 ^ ((k - 5) / 5))

theorem delay_mono {k n : Nat} (h : k ≤ n) : delay k ≤ delay n := by
  have hpow : 2 ^ ((k - 5) / 5) ≤ 2 ^ ((n - 5) / 5) := Nat.pow_le_pow_right two_pos (by omega)
  have hone : 1 ≤ 2 ^ ((n - 5) / 5) := Nat.one_le_two_pow
  unfold delay
  split_ifs <;> omega

theorem shift_eq (e : Nat) : min 300000 (30000 <<< min 4 e) = min 300000 (30000 * 2 ^ e) := by
  rw [shiftLeft_eq]
  rcases le_total e 4 with he | he
  · rw [min_eq_right he]
  · have hpow : 2 ^ 4 ≤ 2 ^ e := Nat.pow_le_pow_right two_pos he
    rw [min_eq_left he]
    omega

theorem failed_eq (s : Store) (later : Nat) (h : s.failures.toNat + 1 < 2 ^ 32) :
    (s.failed later).failures.toNat = s.failures.toNat + 1 ∧
      (s.failed later).retryAt = later + delay (s.failures.toNat + 1) := by
  have hsucc : (s.failures + 1).toNat = s.failures.toNat + 1 := by
    exact mod_eq_of_lt h
  have hfive : s.failures + 1 < 5 ↔ s.failures.toNat + 1 < 5 := by
    rw [UInt32.lt_iff_toNat_lt, hsucc]
    rfl
  refine ⟨hsucc, ?_⟩
  simp only [Store.failed, delay, hfive]
  split_ifs with hlt
  · rfl
  · have hle : (5 : UInt32) ≤ s.failures + 1 := by
      rw [UInt32.le_iff_toNat_le, hsucc]
      exact Nat.le_of_not_lt hlt
    rw [UInt32.toNat_div, UInt32.toNat_sub_of_le _ _ hle, hsucc]
    exact congrArg (later + ·) (shift_eq _)

def Call.guess : Call → Bytes
  | .set _ _ current _ _ _ | .remove current | .setFingerprint current _ => current
  | .verify value => value

/-- The limiter does not refuse the call, and the secret is compared with the record. -/
def Store.checks (s : Store) (l : Label) : Bool :=
  s.retrySeconds l.now = 0 && read l.reads s.folder matches .valid _

/-- The calls of all threads on one store. `operation_` is held by at most one of them, with the call it makes;
`checked` are the times at which guesses were checked. -/
structure Session where
  store : Store
  clock : Nat
  operation : Option (Nat × Label) := none
  checked : List Nat := []

/-- A call runs from `enter`, where it takes `operation_` and looks at the clock, to `leave`. `Inspect` takes only
`rate_`, and it can come in between. -/
inductive Event where
  | enter (thread : Nat) (l : Label)
  | leave (thread : Nat)
  | inspect (thread now : Nat)

def Event.Wrong (scrypt : Bytes → Key → Key) (c : Credential) : Event → Prop
  | .enter _ l => c.matches scrypt l.call.guess = false
  | .leave _ | .inspect _ _ => True

def Session.step (scrypt : Bytes → Key → Key) (s : Session) : Event → Option Session
  | .enter thread l =>
    if s.operation.isNone ∧ s.clock ≤ l.now then some { s with clock := l.now, operation := some (thread, l) } else none
  | .leave thread => do
    let (holder, l) ← s.operation
    if thread = holder ∧ s.clock ≤ l.later then
      some { store := (s.store.apply scrypt l).2, clock := l.later
             checked := s.checked ++ if s.store.checks l then [l.now] else [] }
    else none
  | .inspect _ now => if s.clock ≤ now then some { s with clock := now } else none

section

variable {scrypt : Bytes → Key → Key} {c : Credential} {s : Store} {l : Label}

section

variable (hstored : s.folder.stored = some c) (hwrong : c.matches scrypt l.call.guess = false)

include hstored hwrong

theorem check_wrong : ∃ e, s.check scrypt l.now l.later (read l.reads s.folder) l.call.guess =
      (.error e, if s.checks l then s.failed l.later else s) := by
  unfold Store.check Store.checks
  by_cases hretry : s.retrySeconds l.now = 0
  · cases hread : read l.reads s.folder with
    | none | damaged e => simp [hretry]
    | valid c' =>
      obtain rfl : c' = c := some.inj ((stored_of_read hread).symm.trans hstored)
      simp [hretry, hwrong]
  · simp [hretry]

theorem apply_wrong : (s.apply scrypt l).2 = if s.checks l then s.failed l.later else s := by
  obtain ⟨e, he⟩ := check_wrong hstored hwrong
  have hread : read l.reads s.folder ≠ .none := by
    intro hnone
    have hentry := entry_of_read hnone
    cases hd : s.folder <;> simp_all [Folder.stored, Folder.entry]
  cases hl : l.call <;>
    simp only [hl, Call.guess] at he <;>
    simp [Store.apply, hl, Store.set, Store.remove, Store.setFingerprint, Store.verify, he, hread]

end

theorem retryAt_le (hnear : s.retryAt ≤ l.now + 300000) (h : s.checks l = true) : s.retryAt ≤ l.now := by
  have hretry : s.retrySeconds l.now = 0 := by
    exact of_decide_eq_true (Bool.and_eq_true_iff.mp h).1
  unfold Store.retrySeconds at hretry
  split_ifs at hretry <;> omega

end

/-- The guesses so far are spaced, and the next one has to wait for its turn. `failures` is the count at the start. -/
structure Session.Spaced (scrypt : Bytes → Key → Key) (c : Credential) (failures : Nat) (s : Session) : Prop where
  stored : s.store.folder.stored = some c
  wrong : ∀ p ∈ s.operation, c.matches scrypt p.2.call.guess = false ∧ p.2.now ≤ s.clock
  counted : s.store.failures.toNat = failures + s.checked.length
  near : s.checked ≠ [] → s.store.retryAt ≤ s.clock + 300000 ∧ ∀ p ∈ s.operation, s.store.retryAt ≤ p.2.now + 300000
  next : ∀ first ∈ s.checked.head?, first + ∑ k ∈ range s.checked.length, delay (k + 1) ≤ s.store.retryAt
  spaced : ∀ n, ∀ first ∈ s.checked.head?, ∀ nth ∈ s.checked[n]?, first + ∑ k ∈ range n, delay (k + 1) ≤ nth

namespace Session.Spaced

variable {scrypt : Bytes → Key → Key} {c : Credential} {failures : Nat} {s t : Session} {l : Label}

section

variable (h : s.Spaced scrypt c failures) (hretry : s.checked ≠ [] → s.store.retryAt ≤ l.now)

include h hretry

theorem first_le :
    ∀ first ∈ (s.checked ++ [l.now]).head?, first + ∑ k ∈ range s.checked.length, delay (k + 1) ≤ l.now := by
  intro first hfirst
  have hnext := h.next first
  cases hs : s.checked with
  | nil =>
    rw [hs] at hfirst
    cases hfirst
    exact le_rfl
  | cons a rest =>
    rw [hs] at hfirst hnext
    exact (hnext hfirst).trans (hretry (by simp [hs]))

theorem guess (hlater : l.now ≤ l.later) (hfew : failures + s.checked.length + 1 < 2 ^ 32) :
    Spaced scrypt c failures { store := s.store.failed l.later, clock := l.later, checked := s.checked ++ [l.now] } := by
  have hfirst := h.first_le hretry
  obtain ⟨hcount, hend⟩ := failed_eq s.store l.later (by rw [h.counted]; exact hfew)
  rw [h.counted] at hcount hend
  have hdelay : delay (s.checked.length + 1) ≤ delay (failures + s.checked.length + 1) := delay_mono (by omega)
  have hbound : delay (failures + s.checked.length + 1) ≤ 300000 := by unfold delay; split_ifs <;> omega
  refine ⟨h.stored, by simp, ?_, fun _ => ⟨?_, by simp⟩, ?_, ?_⟩
  · simp only [hcount, length_append, length_singleton, add_assoc]
  · simp only [hend]
    omega
  · intro first hmem
    have hle := hfirst first hmem
    simp only [hend, length_append, length_singleton, Finset.sum_range_succ]
    omega
  · intro n first hmem nth hnth
    rcases lt_trichotomy n s.checked.length with hn | hn | hn
    · rw [getElem?_append_left hn] at hnth
      rw [head?_append_of_ne_nil _ (ne_nil_of_length_pos (by omega))] at hmem
      exact h.spaced n first hmem nth hnth
    · rw [hn, getElem?_concat_length] at hnth
      cases hnth
      exact hn ▸ hfirst first hmem
    · rw [getElem?_eq_none (by simp; omega)] at hnth
      cases hnth

end

theorem leave {thread : Nat} (h : s.Spaced scrypt c failures) (hl : s.operation = some (thread, l))
    (hclock : s.clock ≤ l.later)
    (hfew : failures + (s.checked ++ if s.store.checks l then [l.now] else []).length < 2 ^ 32) :
    Spaced scrypt c failures { store := (s.store.apply scrypt l).2, clock := l.later
                               checked := s.checked ++ if s.store.checks l then [l.now] else [] } := by
  obtain ⟨hwrong, hnow⟩ := h.wrong _ hl
  rw [apply_wrong h.stored hwrong]
  by_cases hchecks : s.store.checks l = true
  · rw [if_pos hchecks, length_append] at hfew
    rw [if_pos hchecks, if_pos hchecks]
    exact h.guess (fun hne => retryAt_le ((h.near hne).2 _ hl) hchecks) (hnow.trans hclock) hfew
  · rw [if_neg hchecks, if_neg hchecks, append_nil]
    refine ⟨h.stored, by simp, h.counted, fun hne => ⟨?_, by simp⟩, h.next, h.spaced⟩
    exact (h.near hne).1.trans (Nat.add_le_add_right hclock _)

theorem step {e : Event} (hs : failures + s.checked.length < 2 ^ 32 → s.Spaced scrypt c failures)
    (hwrong : e.Wrong scrypt c) (hstep : s.step scrypt e = some t) (hfew : failures + t.checked.length < 2 ^ 32) :
    t.Spaced scrypt c failures := by
  cases e with
  | enter thread l =>
    simp only [Session.step, ite_none_right_eq_some, some.injEq] at hstep
    obtain ⟨⟨-, hclock⟩, rfl⟩ := hstep
    have h := hs hfew
    refine ⟨h.stored, ?_, h.counted, fun hne => ?_, h.next, h.spaced⟩
    · simpa [Event.Wrong] using hwrong
    · have hnear := (h.near hne).1.trans (Nat.add_le_add_right hclock _)
      simp [hnear]
  | leave thread =>
    cases hl : s.operation with
    | none => simp [Session.step, hl] at hstep
    | some p =>
      simp only [Session.step, hl, bind_eq_bind, bind_some, ite_none_right_eq_some, some.injEq] at hstep
      obtain ⟨⟨-, hclock⟩, rfl⟩ := hstep
      have hbefore : failures + s.checked.length < 2 ^ 32 := by
        rw [length_append] at hfew
        omega
      exact (hs hbefore).leave hl hclock hfew
  | inspect thread now =>
    simp only [Session.step, ite_none_right_eq_some, some.injEq] at hstep
    obtain ⟨hclock, rfl⟩ := hstep
    have h := hs hfew
    refine ⟨h.stored, fun p hp => ⟨(h.wrong p hp).1, (h.wrong p hp).2.trans hclock⟩, h.counted, fun hne => ?_, h.next,
      h.spaced⟩
    exact ⟨(h.near hne).1.trans (Nat.add_le_add_right hclock _), (h.near hne).2⟩

end Session.Spaced

/-- The n-th guess that is checked waits for the delays of all failures before it, and a refused one changes nothing. -/
theorem guesses_spaced (scrypt : Bytes → Key → Key) {c : Credential} (s : Store) (clock : Nat) (events : List Event)
    {t : Session} (hstored : s.folder.stored = some c) (hwrong : ∀ e ∈ events, e.Wrong scrypt c)
    (hrun : events.foldlM (Session.step scrypt) { store := s, clock } = some t)
    (hfew : s.failures.toNat + t.checked.length < 2 ^ 32) :
    (∀ n, ∀ first ∈ t.checked.head?, ∀ nth ∈ t.checked[n]?, first + ∑ k ∈ range n, delay (k + 1) ≤ nth) ∧
    ∀ l, c.matches scrypt l.call.guess = false → t.store.retrySeconds l.now ≠ 0 →
      (t.store.apply scrypt l).2 = t.store := by
  have hreach := Reaches.refl.foldlM (P := fun _ e => e.Wrong scrypt c) hrun fun e he _ => hwrong e he
  have hspaced := hreach.invariant
    (I := fun u => s.failures.toNat + u.checked.length < 2 ^ 32 → u.Spaced scrypt c s.failures.toNat)
    (fun _ => ⟨hstored, by simp, rfl, by simp, by simp, by simp⟩)
    (fun _ _ _ hu hP hstep hbelow => Session.Spaced.step hu hP hstep hbelow) hfew
  refine ⟨hspaced.spaced, fun l hl hretry => ?_⟩
  rw [apply_wrong hspaced.stored hl, Store.checks, decide_eq_false hretry]
  rfl

def pinStore : Store where
  folder := .present true (.file true (format ⟨.pin, false, ⟨.replicate 32 2, rfl⟩, ⟨.replicate 32 1, rfl⟩⟩))

/-- A wrong PIN of two threads, one second apart. -/
def twoGuesses : List Event :=
  [.enter 1 { call := .verify (ascii "1234") }, .leave 1,
    .enter 2 { call := .remove (ascii "4321"), now := 1000, later := 1000 }, .leave 2]

theorem guesses_spaced_two : ∃ t, twoGuesses.foldlM (Session.step fun _ salt => salt) { store := pinStore, clock := 0 } =
    some t ∧ t.checked = [0, 1000] ∧ 0 + ∑ k ∈ range 1, delay (k + 1) ≤ 1000 := by
  refine ⟨_, rfl, by decide +kernel, ?_⟩
  have h := guesses_spaced (fun _ salt => salt) pinStore 0 twoGuesses (stored_format _)
    (by simp [Event.Wrong, twoGuesses]; decide) rfl (by decide +kernel)
  exact h.1 1 0 (by decide +kernel) 1000 (by decide +kernel)

end AeraRecovery.LockSecurity
