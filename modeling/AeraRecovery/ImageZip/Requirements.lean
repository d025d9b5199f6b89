import AeraRecovery.ImageZip.Inspect

namespace AeraRecovery.ImageZip

open Lib Bytes Checks Text List

def lower (s : Bytes) : Bytes := s.map fun c => if 65 ≤ c && c ≤ 90 then c + 32 else c

def product : Bytes := ascii "product"

def deviceKey (key : Bytes) : Bytes := if key = ascii "board" then product else key

def matchOptions (values : List Bytes) : Bool → List Bytes → Except Bytes Bool
  | matched, [] => .ok matched
  | matched, option :: options =>
    let option := lower (trim option)
    if option = [] then .error (ascii "Empty package requirement")
    else matchOptions values (matched || values.any fun actual => lower (trim actual) = option) options

def checkRule (device : Bytes → Option (List Bytes)) (identity reject : Bool) (line : Bytes) : Except Bytes Bool :=
  if 61 ∉ line then .error (ascii "Malformed android-info requirement")
  else
    let key := deviceKey (trim (line.takeWhile (· ≠ 61)))
    match device key with
    | none | some [] => .error (ascii "Cannot verify package requirement: " ++ key)
    | some (value :: values) => do
        let matched ← matchOptions (value :: values) false (getlines 124 ((line.dropWhile (· ≠ 61)).drop 1))
        if matched = reject then .error (ascii "Package requirement failed: " ++ line)
        else .ok (identity || (key = product && !reject))

def checkLine (device : Bytes → Option (List Bytes)) (identity : Bool) (line : Bytes) : Except Bytes Bool :=
  let line := trim line
  if line = [] ∨ line.head? = some 35 then .ok identity
  else if ascii "require " <+: line then checkRule device identity false (trim (line.drop 8))
  else if ascii "reject " <+: line then checkRule device identity true (trim (line.drop 7))
  else if ascii "require-for-product:" <+: line then
    .error (ascii "Conditional android-info requirements are not supported")
  else checkRule device identity false line

def imageZipCompatible (info : Info) (device : Bytes → Option (List Bytes)) : Except Bytes Unit :=
  if !info.isImageZip || !info.valid then .error (ascii "Invalid image archive")
  else do
    let identity ← (getlines 10 info.requirements).foldlM (checkLine device) false
    if identity then .ok () else .error (ascii "Image ZIP has no verified board/product requirement")

structure Rule where
  reject : Bool
  key : Bytes
  alternatives : List Bytes

inductive Introduces : Bytes → Bool → Bytes → Prop
  | require (rest : Bytes) : Introduces (ascii "require " ++ rest) false (trim rest)
  | reject (rest : Bytes) : Introduces (ascii "reject " ++ rest) true (trim rest)
  | plain (line : Bytes) : ¬ ascii "require " <+: line → ¬ ascii "reject " <+: line → Introduces line false line

structure IsRule (line : Bytes) (r : Rule) : Prop where
  nonempty : r.alternatives ≠ []
  separated : ∀ alternative ∈ r.alternatives, 124 ∉ alternative
  text : ∃ name, 61 ∉ name ∧ trim name = r.key ∧
    Introduces line r.reject (name ++ 61 :: [124].intercalate r.alternatives)

def Matches (values : List Bytes) (alternative : Bytes) : Prop := ∃ v ∈ values, lower (trim v) = lower (trim alternative)

structure Rule.Holds (device : Bytes → Option (List Bytes)) (r : Rule) : Prop where
  filled : ∀ alternative ∈ r.alternatives, trim alternative ≠ []
  known : ∃ values, device (deviceKey r.key) = some values ∧ values ≠ [] ∧
    ((∃ alternative ∈ r.alternatives, Matches values alternative) ↔ r.reject = false)

def isStatement (line : Bytes) : Bool := line ≠ [] && line.head? ≠ some 35

def statements (requirements : Bytes) : List Bytes :=
  ((requirements.splitOn 10).map trim).filter isStatement

structure Satisfied (requirements : Bytes) (device : Bytes → Option (List Bytes)) : Prop where
  rules : ∀ line ∈ statements requirements, ∃ r, IsRule line r ∧ r.Holds device
  identity : ∃ line ∈ statements requirements, ∃ r, IsRule line r ∧ r.reject = false ∧ deviceKey r.key = product

def introduce (line : Bytes) : Bool × Bytes :=
  if ascii "require " <+: line then (false, trim (line.drop 8))
  else if ascii "reject " <+: line then (true, trim (line.drop 7))
  else (false, line)

theorem introduces_iff {line body : Bytes} {reject : Bool} :
    Introduces line reject body ↔ introduce line = (reject, body) := by
  have hlengths : (ascii "require ").length = 8 ∧ (ascii "reject ").length = 7 := by decide
  constructor
  · intro h
    cases h with
    | require rest => rw [introduce, if_pos (prefix_append _ _), ← hlengths.1, drop_left]
    | reject rest =>
      have hrequire : ¬ ascii "require " <+: ascii "reject " ++ rest := by
        rintro ⟨t, ht⟩
        exact absurd (congrArg (List.getD · 2 0) ht) (by simp [ascii])
      rw [introduce, if_neg hrequire, if_pos (prefix_append _ _), ← hlengths.2, drop_left]
    | plain _ hrequire hreject => rw [introduce, if_neg hrequire, if_neg hreject]
  · intro h
    rw [introduce] at h
    split_ifs at h with hrequire hreject
    · obtain ⟨rest, rfl⟩ := hrequire
      cases h
      exact .require rest
    · obtain ⟨rest, rfl⟩ := hreject
      cases h
      exact .reject rest
    · cases h
      exact .plain line hrequire hreject

def ruleOf (reject : Bool) (body : Bytes) : Rule :=
  ⟨reject, trim (body.takeWhile (· ≠ 61)), ((body.dropWhile (· ≠ 61)).drop 1).splitOn 124⟩

theorem takeWhile_ne {name : Bytes} (hname : 61 ∉ name) (rest : Bytes) :
    (name ++ 61 :: rest).takeWhile (· ≠ 61) = name ∧ (name ++ 61 :: rest).dropWhile (· ≠ 61) = 61 :: rest := by
  have hall : ∀ c ∈ name, decide (c ≠ 61) = true := fun c hc => decide_eq_true fun h => hname (h ▸ hc)
  have hstop : ∀ c ∈ (61 :: rest).head?, decide (c ≠ 61) = false := fun c hc => by
    rw [← Option.some.inj hc]
    rfl
  exact ⟨takeWhile_stop hall hstop, dropWhile_stop hall hstop⟩

theorem not_mem_of_mem_splitOn {s w : Bytes} {c : UInt8} (h : w ∈ s.splitOn c) : c ∉ w := by
  intro hc
  simpa using forall_mem_of_mem_splitOnP h c hc

variable {line : Bytes}

theorem isRule_iff {r : Rule} :
    IsRule line r ↔ 61 ∈ (introduce line).2 ∧ r = ruleOf (introduce line).1 (introduce line).2 := by
  constructor
  · rintro ⟨hnonempty, hseparated, name, hname, hkey, hline⟩
    rw [introduces_iff.mp hline]
    obtain ⟨htake, hdrop⟩ := takeWhile_ne hname ([124].intercalate r.alternatives)
    refine ⟨mem_append_right _ mem_cons_self, ?_⟩
    rw [ruleOf, htake, hdrop, hkey, drop_one, tail_cons, splitOn_intercalate 124 hseparated hnonempty]
  · rintro ⟨hequal, rfl⟩
    obtain ⟨name, rest, hbody, hname⟩ := eq_append_cons_of_mem hequal
    obtain ⟨htake, hdrop⟩ := takeWhile_ne hname rest
    have hrule : ruleOf (introduce line).1 (introduce line).2 =
        ⟨(introduce line).1, trim name, rest.splitOn 124⟩ := by
      rw [hbody, ruleOf, htake, hdrop, drop_one, tail_cons]
    rw [hrule]
    refine ⟨splitOn_ne_nil _ _, fun w => not_mem_of_mem_splitOn, name, hname, rfl, introduces_iff.mpr ?_⟩
    rw [intercalate_splitOn, ← hbody]

theorem IsRule.unique {r r' : Rule} (h : IsRule line r) (h' : IsRule line r') : r = r' :=
  (isRule_iff.mp h).2.trans (isRule_iff.mp h').2.symm

/-- The alternatives that `getline` gives: an empty one at the end is lost. -/
def Rule.offered (r : Rule) : List Bytes :=
  if r.alternatives.getLast? = some [] then r.alternatives.dropLast else r.alternatives

structure Rule.Passes (device : Bytes → Option (List Bytes)) (r : Rule) : Prop where
  filled : ∀ alternative ∈ r.offered, trim alternative ≠ []
  known : ∃ values, device (deviceKey r.key) = some values ∧ values ≠ [] ∧
    ((∃ alternative ∈ r.offered, Matches values alternative) ↔ r.reject = false)

def Rule.Identity (r : Rule) : Prop := r.reject = false ∧ deviceKey r.key = product

instance (r : Rule) : Decidable r.Identity := inferInstanceAs (Decidable (_ ∧ _))

section

variable {device : Bytes → Option (List Bytes)} {r : Rule}

theorem Rule.holds_iff : r.Holds device ↔ r.Passes device ∧ r.alternatives.getLast? ≠ some [] := by
  constructor
  · intro h
    have hlast : r.alternatives.getLast? ≠ some [] := fun hlast => h.filled [] (mem_of_getLast? hlast) rfl
    have hoffered : r.offered = r.alternatives := if_neg hlast
    exact ⟨⟨hoffered ▸ h.filled, hoffered ▸ h.known⟩, hlast⟩
  · rintro ⟨⟨hfilled, hknown⟩, hlast⟩
    have hoffered : r.offered = r.alternatives := if_neg hlast
    rw [hoffered] at hfilled hknown
    exact ⟨hfilled, hknown⟩

theorem lower_eq_nil {s : Bytes} : lower s = [] ↔ s = [] := map_eq_nil_iff

variable {out : Bool}

theorem matchOptions_ok_iff {values options : List Bytes} {matched : Bool} :
    matchOptions values matched options = .ok out ↔
      (∀ o ∈ options, trim o ≠ []) ∧ (out = true ↔ matched = true ∨ ∃ o ∈ options, Matches values o) := by
  induction options generalizing matched with
  | nil =>
    rw [matchOptions, Except.ok.injEq]
    cases matched <;> cases out <;> simp
  | cons o options ih =>
    have hmatches : (values.any fun actual => lower (trim actual) = lower (trim o)) = true ↔ Matches values o := by
      simp only [any_eq_true, decide_eq_true_eq, Matches]
    rw [matchOptions]
    split_ifs with hempty
    · exact iff_of_false nofun fun h => h.1 o mem_cons_self (lower_eq_nil.mp hempty)
    · rw [lower_eq_nil] at hempty
      rw [ih, forall_mem_cons, and_iff_right hempty, Bool.or_eq_true, hmatches, or_assoc]
      simp only [mem_cons, exists_eq_or_imp]

variable {identity : Bool}

theorem checkRule_ok_iff {reject : Bool} {body : Bytes} :
    checkRule device identity reject body = .ok out ↔
      61 ∈ body ∧ (ruleOf reject body).Passes device ∧ (out = true ↔ identity = true ∨ (ruleOf reject body).Identity) := by
  have hoffered : (ruleOf reject body).offered = getlines 124 ((body.dropWhile (· ≠ 61)).drop 1) := rfl
  have hkey : deviceKey (trim (body.takeWhile (· ≠ 61))) = deviceKey (ruleOf reject body).key := rfl
  rw [checkRule]
  dsimp only
  rw [hkey, ← hoffered]
  by_cases hequal : 61 ∈ body
  · rw [if_neg (not_not.mpr hequal), and_iff_right hequal]
    split
    · rename_i hdevice
      refine iff_of_false (by simp) fun h => ?_
      obtain ⟨values, hvalues, hne, -⟩ := h.1.known
      rw [hdevice] at hvalues
      cases hvalues
    · rename_i hdevice
      refine iff_of_false (by simp) fun h => ?_
      obtain ⟨values, hvalues, hne, -⟩ := h.1.known
      rw [hdevice] at hvalues
      cases hvalues
      exact hne rfl
    · rename_i value values hdevice
      have hpasses : (ruleOf reject body).Passes device ↔ (∀ o ∈ (ruleOf reject body).offered, trim o ≠ []) ∧
          ((∃ o ∈ (ruleOf reject body).offered, Matches (value :: values) o) ↔ reject = false) := by
        constructor
        · rintro ⟨hfilled, values', hvalues', -, hmatch⟩
          rw [hdevice] at hvalues'
          cases hvalues'
          exact ⟨hfilled, hmatch⟩
        · rintro ⟨hfilled, hmatch⟩
          exact ⟨hfilled, _, hdevice, cons_ne_nil _ _, hmatch⟩
      have hidentity : (identity || (deviceKey (ruleOf reject body).key = product && !reject)) = true ↔
          identity = true ∨ (ruleOf reject body).Identity := by
        simp only [Bool.or_eq_true, Bool.and_eq_true, decide_eq_true_eq, Bool.not_eq_true']
        exact or_congr_right and_comm
      simp only [bind_ok_iff, matchOptions_ok_iff, Bool.false_eq_true, false_or, hpasses]
      constructor
      · rintro ⟨matched, ⟨hfilled, hmatched⟩, h⟩
        split_ifs at h with hfail
        cases h
        cases matched <;> cases reject <;> simp_all
      · rintro ⟨⟨hfilled, hmatch⟩, hout⟩
        refine ⟨!reject, ⟨hfilled, by rw [hmatch, Bool.not_eq_true']⟩, ?_⟩
        rw [if_neg (by cases reject <;> decide), Except.ok.injEq, Bool.eq_iff_iff, hidentity, hout]
  · rw [if_pos hequal]
    exact iff_of_false (by simp) fun h => hequal h.1

theorem checkLine_statement (hline : trim line ≠ [] ∧ (trim line).head? ≠ some 35) :
    checkLine device identity line = .ok out ↔ ¬ ascii "require-for-product:" <+: trim line ∧
      ∃ r, IsRule (trim line) r ∧ r.Passes device ∧ (out = true ↔ identity = true ∨ r.Identity) := by
  have hrule : (∃ r, IsRule (trim line) r ∧ r.Passes device ∧ (out = true ↔ identity = true ∨ r.Identity)) ↔
      checkRule device identity (introduce (trim line)).1 (introduce (trim line)).2 = .ok out := by
    rw [checkRule_ok_iff]
    constructor
    · rintro ⟨r, hr, h⟩
      obtain ⟨hequal, rfl⟩ := isRule_iff.mp hr
      exact ⟨hequal, h⟩
    · rintro ⟨hequal, h⟩
      exact ⟨_, isRule_iff.mpr ⟨hequal, rfl⟩, h⟩
  have hrequire : ascii "require " <+: trim line → ¬ ascii "require-for-product:" <+: trim line := by
    rintro ⟨t, ht⟩ ⟨u, hu⟩
    exact absurd (congrArg (List.getD · 7 0) (ht.trans hu.symm)) (by simp [ascii])
  have hreject : ascii "reject " <+: trim line → ¬ ascii "require-for-product:" <+: trim line := by
    rintro ⟨t, ht⟩ ⟨u, hu⟩
    exact absurd (congrArg (List.getD · 2 0) (ht.trans hu.symm)) (by simp [ascii])
  rw [hrule, checkLine, introduce, if_neg (not_or.mpr hline)]
  split_ifs with h₁ h₂ h₃
  · exact (and_iff_right (hrequire h₁)).symm
  · exact (and_iff_right (hreject h₂)).symm
  · exact iff_of_false nofun fun h => h.1 h₃
  · exact (and_iff_right h₃).symm

theorem checkLine_skip (hline : trim line = [] ∨ (trim line).head? = some 35) :
    checkLine device identity line = .ok out ↔ out = identity := by
  rw [checkLine, if_pos hline, Except.ok.injEq, eq_comm]

def Good (device : Bytes → Option (List Bytes)) (line : Bytes) : Prop :=
  ¬ ascii "require-for-product:" <+: line ∧ ∃ r, IsRule line r ∧ r.Passes device

def Identifies (line : Bytes) : Prop := ∃ r, IsRule line r ∧ r.Identity

theorem IsRule.identifies_iff (h : IsRule line r) : Identifies line ↔ r.Identity :=
  ⟨fun ⟨_, hr, hidentity⟩ => h.unique hr ▸ hidentity, fun hidentity => ⟨r, h, hidentity⟩⟩

theorem checkLines_ok_iff {lines : List Bytes} :
    lines.foldlM (checkLine device) identity = .ok out ↔
      (∀ line ∈ (lines.map trim).filter isStatement, Good device line) ∧
        (out = true ↔ identity = true ∨ ∃ line ∈ (lines.map trim).filter isStatement, Identifies line) := by
  induction lines generalizing identity with
  | nil =>
    cases identity <;> cases out <;> simp
  | cons line lines ih =>
    rw [foldlM_cons, bind_ok_iff, map_cons]
    by_cases hline : isStatement (trim line) = true
    · have hstatement : trim line ≠ [] ∧ (trim line).head? ≠ some 35 := by simpa [isStatement] using hline
      rw [filter_cons_of_pos hline, forall_mem_cons]
      simp only [checkLine_statement hstatement, ih, mem_cons, exists_eq_or_imp]
      constructor
      · rintro ⟨middle, ⟨hplain, r, hr, hpasses, hmiddle⟩, hrest, hout⟩
        refine ⟨⟨⟨hplain, r, hr, hpasses⟩, hrest⟩, ?_⟩
        rw [hout, hmiddle, or_assoc, hr.identifies_iff]
      · rintro ⟨⟨⟨hplain, r, hr, hpasses⟩, hrest⟩, hout⟩
        refine ⟨decide (identity = true ∨ r.Identity), ⟨hplain, r, hr, hpasses, decide_eq_true_iff⟩, hrest, ?_⟩
        rw [hout, decide_eq_true_iff, or_assoc, hr.identifies_iff]
    · have hskip : trim line = [] ∨ (trim line).head? = some 35 := by
        simpa [isStatement, or_iff_not_imp_left] using hline
      rw [filter_cons_of_neg hline]
      simp only [checkLine_skip hskip, ih, exists_eq_left]

variable (requirements : Bytes)

theorem statements_eq :
    statements requirements = ((getlines 10 requirements).map trim).filter isStatement := by
  rw [statements, getlines]
  split_ifs with hlast
  · obtain ⟨init, hinit⟩ := List.getLast?_eq_some_iff.mp hlast
    rw [hinit, dropLast_concat, map_append, filter_append]
    exact append_nil _
  · rfl

theorem imageZipCompatible_iff {info : Info} : imageZipCompatible info device = .ok () ↔
    (info.isImageZip = true ∧ info.valid = true) ∧ (∀ line ∈ statements info.requirements, Good device line) ∧
      ∃ line ∈ statements info.requirements, Identifies line := by
  rw [statements_eq, imageZipCompatible]
  split_ifs with hvalid
  · refine iff_of_false nofun fun h => ?_
    simp [h.1.1, h.1.2] at hvalid
  · have hvalid : info.isImageZip = true ∧ info.valid = true := by simpa using hvalid
    rw [and_iff_right hvalid, bind_ok_iff]
    simp only [checkLines_ok_iff, Bool.false_eq_true, false_or]
    constructor
    · rintro ⟨identity, ⟨hgood, hidentity⟩, h⟩
      split_ifs at h with htrue
      exact ⟨hgood, hidentity.mp htrue⟩
    · rintro ⟨hgood, hidentity⟩
      exact ⟨true, ⟨hgood, iff_of_true rfl hidentity⟩, rfl⟩

def Closed : Prop :=
  ∀ line ∈ statements requirements, ∀ r, IsRule line r → r.alternatives.getLast? ≠ some []

def Unconditional : Prop :=
  ∀ line ∈ statements requirements, ¬ ascii "require-for-product:" <+: line

variable (device) in
/-- An archive that is accepted satisfies its requirements exactly if no rule has an empty last alternative. One that
satisfies them is accepted exactly if no line begins like a conditional requirement. -/
theorem imageZipCompatible_satisfied (info : Info) :
    (imageZipCompatible info device = .ok () → (Satisfied info.requirements device ↔ Closed info.requirements)) ∧
    (info.isImageZip = true ∧ info.valid = true ∧ Satisfied info.requirements device →
      (imageZipCompatible info device = .ok () ↔ Unconditional info.requirements)) := by
  constructor
  · intro h
    obtain ⟨-, hgood, line, hline, r, hr, hidentity⟩ := imageZipCompatible_iff.mp h
    constructor
    · intro hsatisfied line hline r hr
      obtain ⟨r', hr', hholds⟩ := hsatisfied.rules line hline
      obtain rfl := hr.unique hr'
      exact (Rule.holds_iff.mp hholds).2
    · intro hclosed
      refine ⟨fun line hline => ?_, line, hline, r, hr, hidentity⟩
      obtain ⟨-, r, hr, hpasses⟩ := hgood line hline
      exact ⟨r, hr, Rule.holds_iff.mpr ⟨hpasses, hclosed line hline r hr⟩⟩
  · rintro ⟨hzip, hvalid, hsatisfied⟩
    rw [imageZipCompatible_iff, and_iff_right ⟨hzip, hvalid⟩]
    constructor
    · intro h line hline
      exact (h.1 line hline).1
    · intro hplain
      refine ⟨fun line hline => ?_, ?_⟩
      · obtain ⟨r, hr, hholds⟩ := hsatisfied.rules line hline
        exact ⟨hplain line hline, r, hr, (Rule.holds_iff.mp hholds).1⟩
      · obtain ⟨line, hline, r, hr, hidentity⟩ := hsatisfied.identity
        exact ⟨line, hline, r, hr, hidentity⟩

end

section

def sampleRequirements : Info := { isImageZip := true, valid := true, requirements := ascii "require board=sun|\n" }

def sampleDevice (key : Bytes) : Option (List Bytes) := if key = product then some [ascii "SUN"] else none

/-- A rule whose last alternative is empty is accepted. -/
theorem imageZipCompatible_unclosed : imageZipCompatible sampleRequirements sampleDevice = .ok () ∧
      ¬ Satisfied sampleRequirements.requirements sampleDevice := by
  refine ⟨by decide +kernel, fun h => ?_⟩
  obtain ⟨r, hr, hholds⟩ := h.rules (ascii "require board=sun|") (by decide +kernel)
  obtain ⟨-, rfl⟩ := isRule_iff.mp hr
  exact (Rule.holds_iff.mp hholds).2 (by decide +kernel)

end

end AeraRecovery.ImageZip
