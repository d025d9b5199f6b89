import AeraRecovery.Lib.Crash

namespace AeraRecovery.Lib.CrashCalls

open Crash

variable {σ κ α β : Type}

structure Counted (σ : Type) where
  state : σ
  calls : Nat

/-- A call that changes the state unless it fails, as one durable mutation. The answer says that it succeeded. -/
def attempt (fails : κ → Nat → Bool) (c : κ) (change : σ → Option σ) : Prog (Counted σ) Bool :=
  mutate fun w => match if fails c w.calls then none else change w.state with
    | none => (false, { w with calls := w.calls + 1 })
    | some s => (true, ⟨s, w.calls + 1⟩)

def view (f : σ → α) : Prog (Counted σ) α := observe fun w => f w.state

def andThen (p q : Prog (Counted σ) Bool) : Prog (Counted σ) Bool := do
  if ← p then q else return false

/-- `Safe` for a condition on the states alone. -/
def Sound (C : σ → Prop) (p : Prog (Counted σ) α) (s : σ) (Q : α → σ → Prop) : Prop :=
  ∀ n, Safe (fun w => C w.state) p ⟨s, n⟩ fun a w => Q a w.state

variable {C : σ → Prop} {p : Prog (Counted σ) α} {s : σ} {Q : α → σ → Prop}

theorem sound_pure {a : α} (h : Q a s) : Sound C (pure a : Prog (Counted σ) α) s Q := fun _ => safe_pure h

theorem sound_view {f : σ → α} (h : Q (f s) s) : Sound C (view f) s Q := fun _ => safe_observe h

theorem sound_bind {f : α → Prog (Counted σ) β} {R : α → σ → Prop} {Q : β → σ → Prop} (hp : Sound C p s R)
    (hf : ∀ a t, R a t → Sound C (f a) t Q) : Sound C (p >>= f) s Q :=
  fun n => safe_bind (hp n) fun a w hw => hf a w.state hw w.calls

theorem Sound.imp {R : α → σ → Prop} (h : Sound C p s R) (hRQ : ∀ a t, R a t → Q a t) : Sound C p s Q :=
  fun n => (h n).imp fun a w => hRQ a w.state

theorem Sound.mono {D : σ → Prop} (h : Sound C p s Q) (hCD : ∀ t, C t → D t) : Sound D p s Q :=
  fun n => (h n).mono fun w => hCD w.state

theorem Sound.crashPoint {w : Counted σ} {n : Nat} (h : Sound C p s Q) (hQ : ∀ a t, Q a t → C t)
    (hw : CrashPoint p ⟨s, n⟩ w) : C w.state :=
  (h n).crashPoint (fun a w => hQ a w.state) hw

theorem Sound.value (h : Sound C p s Q) (n : Nat) : Q (p ⟨s, n⟩).value (p ⟨s, n⟩).final.state := (h n).2

theorem sound_attempt {fails : κ → Nat → Bool} {c : κ} {change : σ → Option σ} {Q : Bool → σ → Prop} (hs : C s)
    (hok : ∀ t, change s = some t → Q true t) (hfail : (∀ t, change s = some t → ∃ n, fails c n = true) → Q false s) :
    Sound C (attempt fails c change) s Q := by
  intro n
  refine safe_mutate (C := fun w : Counted σ => C w.state) hs ?_
  cases hfails : fails c n with
  | true => exact hfail fun _ _ => ⟨n, hfails⟩
  | false =>
    cases hchange : change s with
    | none => exact hfail fun t ht => absurd (hchange.symm.trans ht) nofun
    | some t => exact hok t hchange

theorem sound_andThen {p q : Prog (Counted σ) Bool} {Q : Bool → σ → Prop}
    (hp : Sound C p s fun okay t => if okay then Sound C q t Q else Q false t) : Sound C (andThen p q) s Q := by
  refine sound_bind hp fun okay t ht => ?_
  cases okay with
  | true => exact ht
  | false => exact sound_pure ht

end AeraRecovery.Lib.CrashCalls
