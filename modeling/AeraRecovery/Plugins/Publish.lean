import AeraRecovery.Plugins.InstallLocal

namespace AeraRecovery.Plugins

open Lib Bytes Checks Commands Calls FileSystem Text List Function Bool

variable {id : Bytes}

theorem safeId_ne_nil (h : safeId id = true) : id ≠ [] := by
  rintro rfl
  exact absurd h (by decide)

theorem safeId_head (h : safeId id = true) : id.head? ≠ some 46 := by
  simp only [safeId, and_eq_true, decide_eq_true_eq] at h
  exact h.1.1.2

theorem ne_stagingName (h : safeId id = true) (other : Bytes) (pid : Nat) : id ≠ stagingName other pid := by
  rintro rfl
  exact safeId_head h rfl

theorem previousName_ne (id : Bytes) : previousName id ≠ id := by
  intro h
  have hlength := congrArg length h
  rw [previousName, length_append] at hlength
  exact absurd hlength (by change ¬ _ + 9 = _; omega)

theorem previousName_ne_stagingName (h : safeId id = true) (other : Bytes) (pid : Nat) :
    previousName id ≠ stagingName other pid := by
  intro heq
  cases id with
  | nil => exact safeId_ne_nil h rfl
  | cons c id =>
    have hhead : some c = some 46 := congrArg head? heq
    exact safeId_head h hhead

section

variable {E : Failure → Files Bytes Bytes → Prop}

variable {broken : Bool}

theorem spec_callOnce {P : Files Bytes Bytes → Prop} {Q : Bool → Files Bytes Bytes → Prop}
    {change : Files Bytes Bytes → Option (Files Bytes Bytes)}
    (hok : broken = false → ∀ f g, P f → change f = some g → Q true g)
    (hfail : ∀ f, P f → (broken = false → change f = none) → Q false f) : Spec P (callOnce broken change) Q E := by
  refine spec_call (fun hlive => hok ?_) fun f hf hnone => hfail f hf fun h => hnone fun _ => h
  cases broken with
  | false => rfl
  | true => exact absurd (fun _ => rfl) hlive

structure Removed (fails : Nat → Bool) (path : List Bytes) (f g : Files Bytes Bytes) : Prop where
  shrinks : Shrinks path f g
  gone : Quiet fails → g.entry path = none
  dead : Dead fails → g = f

theorem spec_removePath (fails : Nat → Bool) {path : List Bytes} (hpath : path ≠ []) (f : Files Bytes Bytes) :
    Spec (· = f) (removeTree fails path) (fun _ g => Removed fails path f g) E := by
  refine spec_here ?_
  exact (spec_removeTree true _ path f).mono (fun _ h => h) fun okay g h =>
    ⟨h.shrinks, fun hquiet => h.gone (h.okay hquiet hpath), h.dead⟩

/-- Only the staging directory differs from `f`, and `t` is what is in it. -/
structure Staging (f : Files Bytes Bytes) (staging : Bytes) (t : List Bytes → Option (Entry Bytes))
    (g : Files Bytes Bytes) : Prop where
  outside : ∀ n q, n ≠ staging → g.entry (n :: q) = f.entry (n :: q)
  inside : ∀ q, g.entry (staging :: q) = t q

def Outside (f : Files Bytes Bytes) (staging : Bytes) (g : Files Bytes Bytes) : Prop :=
  ∀ n q, n ≠ staging → g.entry (n :: q) = f.entry (n :: q)

variable {t : List Bytes → Option (Entry Bytes)}

variable {f g : Files Bytes Bytes} {staging n : Bytes}

theorem Staging.put {g' : Files Bytes Bytes}
    {e : Option (Entry Bytes)} (hg : Staging f staging t g) (h : g'.entry = update g.entry [staging, n] e) :
    Staging f staging (update t [n] e) g' := by
  refine ⟨fun m q hm => ?_, fun q => ?_⟩
  · rw [h, update_of_ne fun heq => hm (cons.inj heq).1]
    exact hg.outside m q hm
  · rw [h]
    by_cases hq : q = [n]
    · rw [hq, update_self, update_self]
    · rw [update_of_ne hq, update_of_ne fun heq => hq (cons.inj heq).2]
      exact hg.inside q

theorem spec_produce {content : Bytes} {opens okay : Bool} (hdir : t [] = some .dir) :
    Spec (Staging f staging t) (produce opens [staging, n] content okay) (fun b g => Outside f staging g ∧
        (b = true → okay = true ∧ Staging f staging (update t [n] (some (.file content))) g) ∧
        (opens = true → okay = true → t [n] = none → b = true)) E := by
  refine spec_bind (R := fun b g => if b then Staging f staging (update t [n] (some (.file []))) g
    else Staging f staging t g ∧ (opens = true → t [n] ≠ none)) (spec_callOnce ?_ ?_) fun b => ?_
  · intro _ g h hg hcreate
    exact hg.put (Files.entry_create hcreate).2
  · intro g hg hnone
    refine ⟨hg, fun hopens ht => ?_⟩
    have hnew : g.entry [staging, n] = none := (hg.inside [n]).trans ht
    obtain ⟨g', hg'⟩ := g.create_isSome (.file []) (cons_ne_nil staging [n]) hnew ((hg.inside []).trans hdir)
    cases hg'.symm.trans (hnone (by rw [hopens]; rfl))
  · cases b with
    | false =>
      rintro g ⟨hg, hn⟩
      exact ⟨hg.outside, nofun, fun hopens _ ht => absurd ht (hn hopens)⟩
    | true =>
      refine spec_bind (spec_update (Q := fun _ => Staging f staging (update t [n] (some (.file content))))
        fun g hg => ?_) fun _ => spec_pure fun g hg => ⟨hg.outside, fun hokay => ⟨hokay, hg⟩, fun _ hokay _ => hokay⟩
      have hfile : g.entry [staging, n] = some (.file []) := (hg.inside [n]).trans (update_self _ _ _)
      have hput := hg.put (g.entry_write hfile content)
      rwa [update_idem] at hput

theorem spec_extractPayload {payload : ZipEntry} {w : Writing} (hdir : t [] = some .dir) :
    Spec (Staging f staging t) (extractPayload w payload [staging, n])
      (fun b g => Outside f staging g ∧ (b = true → payload.data.2 = true ∧
          Staging f staging (update t [n] (some (.file payload.data.1))) g) ∧
        (w = {} → payload.data.2 = true → t [n] = none → b = true)) E := by
  rw [extractPayload]
  cases hstops : w.stops with
  | none =>
    refine (spec_produce hdir).mono (fun _ h => h) fun b g h => ⟨h.1, h.2.1, ?_⟩
    rintro rfl hdata ht
    exact h.2.2 rfl hdata ht
  | some k =>
    refine (spec_produce hdir).mono (fun _ h => h) fun b g h => ⟨h.1, fun hb => Bool.noConfusion (h.2.1 hb).1, ?_⟩
    rintro rfl
    cases hstops

theorem spec_writeFile {content : Bytes} {w : Writing} (hdir : t [] = some .dir) :
    Spec (Staging f staging t) (writeFile w [staging, n] content)
      (fun b g => Outside f staging g ∧ (b = true → Staging f staging (update t [n] (some (.file content))) g) ∧
        (w = {} → t [n] = none → b = true)) E := by
  -- a file is written as a payload that the archive gives in full
  have hpayload : Spec (Staging f staging t) (extractPayload w ⟨0, none, content, true⟩ [staging, n]) _ E :=
    spec_extractPayload hdir
  refine hpayload.mono (fun _ h => h) fun b g h => ?_
  exact ⟨h.1, fun hb => (h.2.1 hb).2, fun hw => h.2.2 hw rfl⟩

def emptyDirectory : List Bytes → Option (Entry Bytes) := update (fun _ => none) [] (some .dir)

def signed (signature : Option Bytes) (t : List Bytes → Option (Entry Bytes)) : List Bytes → Option (Entry Bytes) :=
  match signature with
  | none => t
  | some signature => update t [ascii "plugin.json.sig"] (some (.file signature))

def layout (bundle : Bundle) (payload : Bytes) : List Bytes → Option (Entry Bytes) :=
  update (signed bundle.signature
    (update emptyDirectory [ascii "plugin.json"] (some (.file bundle.manifest))))
    [bundle.plugin.payloadName] (some (.file payload))

def Intact (lib : Libraries) (bundle : Bundle) : Prop :=
  bundle.payload.data.2 = true ∧
    hashMatches lib bundle.payload.data.1 bundle.plugin.payloadSize bundle.plugin.payloadSha256 = true

structure Faults.StagesWell (faults : Faults) : Prop where
  root : faults.root = false
  clearStaging : Quiet faults.clearStaging
  mkdir : faults.mkdir = false
  manifest : faults.manifest = {}
  signature : faults.signature = {}
  payload : faults.payload = {}
  hash : faults.hash = false

theorem signed_nil (signature : Option Bytes) (h : t [] = some .dir) : signed signature t [] = some .dir := by
  cases signature with
  | none => exact h
  | some signature => exact (update_of_ne (cons_ne_nil _ []).symm _ _).trans h

theorem signed_payload {signature : Option Bytes} {manifest name : Bytes}
    (hname : name ∈ [ascii "runtime.xz", ascii "font.ttf", ascii "font.otf"]) :
    signed signature (update emptyDirectory [ascii "plugin.json"] (some (.file manifest))) [name] = none := by
  have hjson : [name] ≠ [ascii "plugin.json"] := by
    rintro heq
    rw [(cons.inj heq).1] at hname
    exact absurd hname (by decide)
  have hsig : [name] ≠ [ascii "plugin.json.sig"] := by
    rintro heq
    rw [(cons.inj heq).1] at hname
    exact absurd hname (by decide)
  have hempty : update emptyDirectory [ascii "plugin.json"] (some (.file manifest)) [name] = none := by
    rw [update_of_ne hjson, emptyDirectory, update_of_ne (cons_ne_nil name [])]
  cases signature with
  | none => exact hempty
  | some signature => exact (update_of_ne hsig _ _).trans hempty

variable {faults : Faults} {bundle : Bundle}

theorem spec_extractBundle
    (hname : bundle.plugin.payloadName ∈ [ascii "runtime.xz", ascii "font.ttf", ascii "font.otf"]) :
    Spec (Staging f staging emptyDirectory) (extractBundle faults bundle staging) (fun b g => Outside f staging g ∧
        (b = true → bundle.payload.data.2 = true ∧ Staging f staging (layout bundle bundle.payload.data.1) g) ∧
        (faults.StagesWell → bundle.payload.data.2 = true → b = true)) E := by
  have hdir : update emptyDirectory [ascii "plugin.json"] (some (.file bundle.manifest)) [] = some .dir := by
    rw [update_of_ne (cons_ne_nil _ []).symm]
    exact update_self _ _ _
  refine spec_bind (spec_writeFile (update_self _ _ _)) fun b => ?_
  cases b with
  | false =>
    refine spec_pure fun g h => ⟨h.1, nofun, fun hwell _ => ?_⟩
    exact h.2.2 hwell.manifest (update_of_ne (cons_ne_nil _ []) _ _)
  | true =>
    refine spec_bind (R := fun b g => Outside f staging g ∧ (b = true → Staging f staging (signed bundle.signature
        (update emptyDirectory [ascii "plugin.json"] (some (.file bundle.manifest)))) g) ∧
      (faults.StagesWell → b = true)) ?_ fun b => ?_
    · cases hsignature : bundle.signature with
      | none => exact spec_pure fun g h => ⟨h.1, h.2.1, fun _ => rfl⟩
      | some signature =>
        refine (spec_writeFile hdir).mono (fun g h => h.2.1 rfl) fun b g h => ⟨h.1, h.2.1, fun hwell => ?_⟩
        refine h.2.2 hwell.signature ?_
        have hne : ([ascii "plugin.json.sig"] : List Bytes) ≠ [ascii "plugin.json"] := by decide
        rw [update_of_ne hne, emptyDirectory, update_of_ne (cons_ne_nil _ [])]
    · cases b with
      | false => exact spec_pure fun g h => ⟨h.1, nofun, fun hwell => Bool.noConfusion (h.2.2 hwell)⟩
      | true =>
        refine (spec_extractPayload (signed_nil _ hdir)).mono (fun g h => h.2.1 rfl) fun b g h => ⟨h.1, h.2.1, ?_⟩
        exact fun hwell hdata => h.2.2 hwell.payload hdata (signed_payload hname)

variable {fails : Nat → Bool}

theorem Removed.outside {h : Files Bytes Bytes} (hf : Outside f staging g)
    (hg : Removed fails [staging] g h) : Outside f staging h := by
  intro n q hn
  rw [hg.shrinks.other hn, hf n q hn]

theorem spec_drop {C : Prop} {e : Failure} {Q : Unit → Files Bytes Bytes → Prop} :
    Spec (fun g => Outside f staging g ∧ C) (do let _ ← removeTree fails [staging]; throw e) Q
      (fun _ g => Outside f staging g ∧ C) := by
  refine spec_bind (R := fun _ g => Outside f staging g ∧ C) (spec_fix fun g hg => ?_) fun _ => spec_throw fun _ h => h
  refine (spec_removePath fails (cons_ne_nil staging []) g).mono (fun _ h => h) fun _ h hremoved => ⟨?_, hg.2⟩
  exact hremoved.outside hg.1

theorem spec_makeStaging :
    Spec (· = f) (do let _ ← removeTree fails [staging]; callOnce broken (·.create [staging] .dir))
      (fun b g => Outside f staging g ∧ (b = true → Staging f staging emptyDirectory g) ∧
        (Quiet fails → broken = false → b = true)) E := by
  refine spec_bind (spec_removePath fails (cons_ne_nil staging []) f) fun _ => spec_callOnce ?_ ?_
  · intro _ g h hg hcreate
    obtain ⟨hnone, hentry⟩ := Files.entry_create hcreate
    have houtside : Outside f staging h := by
      intro n q hn
      rw [hentry, update_of_ne fun heq => hn (cons.inj heq).1, hg.shrinks.other hn]
    refine ⟨houtside, fun _ => ⟨houtside, fun q => ?_⟩, fun _ _ => rfl⟩
    rw [hentry, emptyDirectory]
    by_cases hq : q = []
    · rw [hq, update_self, update_self]
    · rw [update_of_ne hq, update_of_ne fun heq => hq (cons.inj heq).2]
      exact g.entry_append_none hnone q
  · intro g hg hnone
    refine ⟨fun n q hn => hg.shrinks.other hn q, nofun, fun hquiet hbroken => ?_⟩
    obtain ⟨h, hh⟩ := g.create_isSome .dir (cons_ne_nil staging []) (hg.gone hquiet) g.root
    cases hh.symm.trans (hnone hbroken)

theorem spec_hashFile {lib : Libraries} {payload : Bytes} :
    Spec (Staging f staging (layout bundle payload)) (hashFile lib broken [staging, bundle.plugin.payloadName]
        bundle.plugin.payloadSize bundle.plugin.payloadSha256)
      (fun b g => Staging f staging (layout bundle payload) g ∧
        b = (!broken && hashMatches lib payload bundle.plugin.payloadSize bundle.plugin.payloadSha256)) E := by
  refine spec_files fun g hg => ?_
  have hfile : g.entry [staging, bundle.plugin.payloadName] = some (.file payload) :=
    (hg.inside [bundle.plugin.payloadName]).trans (update_self _ _ _)
  rw [hfile]
  exact spec_return ⟨hg, rfl⟩

theorem spec_stage {lib : Libraries} {location : Location}
    (hname : bundle.plugin.payloadName ∈ [ascii "runtime.xz", ascii "font.ttf", ascii "font.otf"]) :
    Spec (· = f) (stage lib faults location bundle staging)
      (fun _ g => Intact lib bundle ∧ Staging f staging (layout bundle bundle.payload.data.1) g)
      (fun _ g => Outside f staging g ∧ ¬ (faults.StagesWell ∧ Intact lib bundle)) := by
  unfold stage
  by_cases hroot : faults.root = true
  · rw [if_pos hroot]
    rintro g rfl
    exact ⟨fun _ _ _ => rfl, fun h => Bool.noConfusion (h.1.root.symm.trans hroot)⟩
  rw [if_neg hroot, ← bind_assoc]
  refine spec_bind spec_makeStaging fun b => ?_
  cases b with
  | false =>
    refine spec_throw fun g hg => ⟨hg.1, fun h => ?_⟩
    exact Bool.noConfusion (hg.2.2 h.1.clearStaging h.1.mkdir)
  | true =>
    refine spec_bind ((spec_extractBundle hname).mono (fun g h => h.2.1 rfl) fun _ _ h => h) fun b => ?_
    cases b with
    | false =>
      refine Spec.mono spec_drop (fun g hg => ⟨hg.1, fun h => ?_⟩) fun _ _ h => h
      exact Bool.noConfusion (hg.2.2 h.1 h.2.1)
    | true =>
      refine spec_bind (R := fun b g => (bundle.payload.data.2 = true ∧
        Staging f staging (layout bundle bundle.payload.data.1) g) ∧ b = (!faults.hash &&
          hashMatches lib bundle.payload.data.1 bundle.plugin.payloadSize bundle.plugin.payloadSha256)) ?_ fun b => ?_
      · refine spec_fix fun g hg => ?_
        obtain ⟨hdata, hg⟩ := hg.2.1 rfl
        refine spec_hashFile.mono ?_ fun b g' h => ⟨⟨hdata, h.1⟩, h.2⟩
        rintro _ rfl
        exact hg
      · cases b with
        | false =>
          refine Spec.mono spec_drop (fun g hg => ⟨hg.1.2.outside, fun h => ?_⟩) fun _ _ h => h
          have hb := hg.2
          rw [h.1.hash, h.2.2] at hb
          cases hb
        | true =>
          refine spec_pure fun g hg => ⟨⟨hg.1.1, ?_⟩, hg.1.2⟩
          exact (and_eq_true _ _ |>.mp hg.2.symm).2

/-- Every way in which the exchange of the two directories can end. -/
inductive Exchange (faults : Faults) (id staging : Bytes) (f : Files Bytes Bytes) : Bool → Bool → Files Bytes Bytes → Prop
  | kept (h : faults.aside = false → f.rename [id] [previousName id] = none) : Exchange faults id staging f true false f
  | stopped {g : Files Bytes Bytes} (haside : faults.aside = false) (hg : f.rename [id] [previousName id] = some g)
      (h : faults.publish = false → g.rename [staging] [id] = none) : Exchange faults id staging f true false g
  | replaced {g h : Files Bytes Bytes} (haside : faults.aside = false)
      (hg : f.rename [id] [previousName id] = some g) (hh : g.rename [staging] [id] = some h) :
      Exchange faults id staging f true true h
  | refused (h : faults.publish = false → f.rename [staging] [id] = none) : Exchange faults id staging f false false f
  | placed {g : Files Bytes Bytes} (hg : f.rename [staging] [id] = some g) : Exchange faults id staging f false true g

variable {id : Bytes}

theorem spec_exchange (hadPrevious : Bool) :
    Spec (· = f) (exchange faults hadPrevious id staging) (Exchange faults id staging f hadPrevious) E := by
  cases hadPrevious with
  | false =>
    change Spec _ (callOnce faults.publish (·.rename [staging] [id])) _ E
    refine spec_callOnce ?_ ?_
    · rintro - f g rfl hg
      exact .placed hg
    · rintro f rfl hnone
      exact .refused hnone
  | true =>
    rw [exchange, setAside, if_pos rfl]
    refine spec_bind (R := fun b g => if b then faults.aside = false ∧ f.rename [id] [previousName id] = some g
      else g = f ∧ (faults.aside = false → f.rename [id] [previousName id] = none)) (spec_callOnce ?_ ?_) fun b => ?_
    · rintro haside f g rfl hg
      exact ⟨haside, hg⟩
    · rintro f rfl hnone
      exact ⟨rfl, hnone⟩
    · cases b with
      | false =>
        rintro g ⟨rfl, hnone⟩
        exact .kept hnone
      | true =>
        refine spec_callOnce ?_ ?_
        · rintro - g h ⟨haside, hg⟩ hh
          exact .replaced haside hg hh
        · rintro g ⟨haside, hg⟩ hnone
          exact .stopped haside hg hnone

/-- A leftover beside the plugin that a rename can put in the place of the plugin, and that differs from it. -/
def Clash (f : Files Bytes Bytes) (id : Bytes) : Prop :=
  f.entry [id] ≠ none ∧ f.entry [previousName id] ≠ none ∧ f.Free [previousName id] [id] ∧
    ∃ q, f.entry (previousName id :: q) ≠ f.entry (id :: q)

structure Faults.PublishesWell (faults : Faults) : Prop where
  clearPrevious : Quiet faults.clearPrevious
  aside : faults.aside = false
  publish : faults.publish = false
  access : faults.access = false
  drop : Quiet faults.drop

/-- A leftover that cannot be removed is in the way of the earlier directory. -/
structure Faults.Blocked (faults : Faults) : Prop where
  clearPrevious : Dead faults.clearPrevious
  aside : faults.aside = true
  access : faults.access = false

/-- What the publication does to the store, and whether it succeeds. -/
structure Publication (faults : Faults) (id staging : Bytes) (f : Files Bytes Bytes) (okay : Bool)
    (g : Files Bytes Bytes) : Prop where
  others : ∀ n q, n ≠ id → n ≠ previousName id → n ≠ staging → g.entry (n :: q) = f.entry (n :: q)
  fresh : okay = true → ∀ q, g.entry (id :: q) = f.entry (staging :: q)
  old : okay = false → faults.undo = false → ¬ Clash f id → ∀ q, g.entry (id :: q) = f.entry (id :: q)
  complete : faults.PublishesWell → okay = true ∧ g.entry [previousName id] = none
  blocked : faults.Blocked → faults.undo = false → Clash f id →
    okay = false ∧ ∀ q, g.entry (id :: q) = f.entry (previousName id :: q)

def TakenBack (faults : Faults) (id : Bytes) (hadPrevious : Bool) (f g : Files Bytes Bytes) : Prop :=
  if hadPrevious then f.rename [previousName id] [id] = some g ∨
    g = f ∧ (faults.undo = false → f.rename [previousName id] [id] = none)
  else g = f

theorem spec_takeBack (hadPrevious : Bool) :
    Spec (· = f) (takeBack faults hadPrevious id) (fun _ g => TakenBack faults id hadPrevious f g) E := by
  cases hadPrevious with
  | false => exact spec_pure fun g hg => hg
  | true =>
    rw [takeBack, if_pos rfl]
    refine spec_callOnce ?_ ?_
    · rintro - f g rfl hg
      exact .inl hg
    · rintro f rfl hnone
      exact .inr ⟨rfl, hnone⟩

theorem leftover_eq {h : Files Bytes Bytes} (hclash : ¬ Clash f id)
    (hg : Shrinks [previousName id] f g) (hid : g.entry [id] ≠ none) (hh : g.rename [previousName id] [id] = some h)
    (q : List Bytes) : g.entry (previousName id :: q) = f.entry (id :: q) := by
  have hne : [previousName id] ≠ [id] := fun heq => previousName_ne id (cons.inj heq).1
  obtain ⟨-, hsome, hfree, -⟩ := Files.entry_rename hne hh
  have hsame : ∀ q, g.entry (id :: q) = f.entry (id :: q) := hg.other (previousName_ne id).symm
  have hlist : ∀ q, q ≠ [] → f.entry (id :: q) = none := by
    intro q hq
    rw [← hsame q]
    exact g.list_eq_nil_iff.mp hfree.1 q hq
  have heq : ∀ q, f.entry (previousName id :: q) = f.entry (id :: q) := by
    intro q
    by_contra hq
    refine hclash ⟨hsame [] ▸ hid, hg.exists hsome ▸ hsome, ⟨f.list_eq_nil_iff.mpr hlist, fun _ => ?_⟩, q, hq⟩
    rw [← hg.exists hsome, ← hsame []]
    exact hfree.2 hid
  rcases hg (previousName id :: q) with h | h
  · rw [h, heq]
  · rw [h.2]
    refine (hlist q ?_).symm
    rintro rfl
    exact hsome h.2

section

variable {faults : Faults} {id staging : Bytes} {f g h k l : Files Bytes Bytes} {hadPrevious : Bool}
  (hid : staging ≠ id) (hprevious : staging ≠ previousName id)

include hid hprevious

theorem publication_of_success (hg : Removed faults.clearPrevious [previousName id] f g)
    (hhad : hadPrevious = (!faults.access && (g.entry [id]).isSome))
    (hh : Exchange faults id staging g hadPrevious true h) (hk : Removed faults.drop [previousName id] h k) :
    Publication faults id staging f true k where
  others := by
    intro n q h₁ h₂ h₃
    rw [hk.shrinks.other h₂, ← hg.shrinks.other h₂]
    cases hh with
    | replaced _ hg' hh =>
      rw [(Files.entry_rename_root hid hh).2.2 n q h₃ h₁,
        (Files.entry_rename_root (previousName_ne id).symm hg').2.2 n q h₁ h₂]
    | placed hg' => exact (Files.entry_rename_root hid hg').2.2 n q h₃ h₁
  fresh := by
    intro _ q
    rw [hk.shrinks.other (previousName_ne id).symm, ← hg.shrinks.other hprevious]
    cases hh with
    | replaced _ hg' hh =>
      rw [(Files.entry_rename_root hid hh).1,
        (Files.entry_rename_root (previousName_ne id).symm hg').2.2 staging q hid hprevious]
    | placed hg' => exact (Files.entry_rename_root hid hg').1 q
  old := nofun
  complete := fun hwell => ⟨rfl, hk.gone hwell.drop⟩
  blocked := by
    intro hblocked _ hclash
    rw [hblocked.access, hg.dead hblocked.clearPrevious, Option.isSome_iff_ne_none.mpr hclash.1] at hhad
    subst hhad
    cases hh with
    | replaced haside => exact Bool.noConfusion (haside.symm.trans hblocked.aside)

omit hprevious in
theorem publication_of_kept (hg : Removed faults.clearPrevious [previousName id] f g) (hsome : g.entry [id] ≠ none)
    (hkept : faults.aside = false → g.rename [id] [previousName id] = none) (hk : TakenBack faults id true g k)
    (hl : Removed faults.drop [staging] k l) : Publication faults id staging f false l where
  others := by
    intro n q h₁ h₂ h₃
    rw [hl.shrinks.other h₃, ← hg.shrinks.other h₂]
    rcases hk with hk | ⟨rfl, -⟩
    · exact (Files.entry_rename_root (previousName_ne id) hk).2.2 n q h₂ h₁
    · rfl
  fresh := nofun
  old := by
    intro _ hundo hclash q
    rw [hl.shrinks.other hid.symm]
    rcases hk with hk | ⟨rfl, -⟩
    · rw [(Files.entry_rename_root (previousName_ne id) hk).1, leftover_eq hclash hg.shrinks hsome hk]
    · exact hg.shrinks.other (previousName_ne id).symm q
  complete := by
    intro hwell
    obtain ⟨h, hh⟩ := g.rename_root_isSome (previousName_ne id).symm hsome (g.free_of_none (hg.gone hwell.clearPrevious))
    cases hh.symm.trans (hkept hwell.aside)
  blocked := by
    intro hblocked hundo hclash
    have hgf : g = f := hg.dead hblocked.clearPrevious
    subst hgf
    refine ⟨rfl, fun q => ?_⟩
    rw [hl.shrinks.other hid.symm]
    rcases hk with hk | ⟨-, hk⟩
    · exact (Files.entry_rename_root (previousName_ne id) hk).1 q
    · obtain ⟨h, hh⟩ := g.rename_root_isSome (previousName_ne id) hclash.2.1 hclash.2.2.1
      cases hh.symm.trans (hk hundo)

section

variable (hstaging : f.entry [staging] ≠ none) (hg : Removed faults.clearPrevious [previousName id] f g)

include hstaging hg

theorem publication_of_stopped (haside : faults.aside = false)
    (hh : g.rename [id] [previousName id] = some h) (hstopped : faults.publish = false → h.rename [staging] [id] = none)
    (hk : TakenBack faults id true h k) (hl : Removed faults.drop [staging] k l) :
    Publication faults id staging f false l := by
  have hne : [id] ≠ [previousName id] := fun heq => previousName_ne id (cons.inj heq).1.symm
  have hsome := (Files.entry_rename hne hh).2.1
  obtain ⟨htarget, hsource, hframe⟩ := Files.entry_rename_root (previousName_ne id).symm hh
  constructor
  · intro n q h₁ h₂ h₃
    rw [hl.shrinks.other h₃, ← hg.shrinks.other h₂, ← hframe n q h₁ h₂]
    rcases hk with hk | ⟨rfl, -⟩
    · exact (Files.entry_rename_root (previousName_ne id) hk).2.2 n q h₂ h₁
    · rfl
  · exact nofun
  · intro _ hundo _ q
    rw [hl.shrinks.other hid.symm, ← hg.shrinks.other (previousName_ne id).symm, ← htarget]
    rcases hk with hk | ⟨-, hk⟩
    · exact (Files.entry_rename_root (previousName_ne id) hk).1 q
    · obtain ⟨k, hk'⟩ := h.rename_root_isSome (previousName_ne id) (htarget [] ▸ hsome) (h.free_of_none (hsource []))
      cases hk'.symm.trans (hk hundo)
  · intro hwell
    have hstays : h.entry [staging] ≠ none := by
      rw [hframe staging [] hid hprevious, hg.shrinks.other hprevious]
      exact hstaging
    obtain ⟨k, hk'⟩ := h.rename_root_isSome hid hstays (h.free_of_none (hsource []))
    cases hk'.symm.trans (hstopped hwell.publish)
  · intro hblocked
    exact Bool.noConfusion (haside.symm.trans hblocked.aside)

theorem publication_of_failure (hhad : hadPrevious = (!faults.access && (g.entry [id]).isSome))
    (hh : Exchange faults id staging g hadPrevious false h) (hk : TakenBack faults id hadPrevious h k)
    (hl : Removed faults.drop [staging] k l) : Publication faults id staging f false l := by
  cases hh with
  | kept hkept =>
    have hsome := (and_eq_true _ _ |>.mp hhad.symm).2
    exact publication_of_kept hid hg (Option.isSome_iff_ne_none.mp hsome) hkept hk hl
  | stopped haside hh hstopped => exact publication_of_stopped hid hprevious hstaging hg haside hh hstopped hk hl
  | refused hrefused =>
    have hkg : k = g := hk
    subst hkg
    have hhidden : faults.access = false → k.entry [id] = none := by
      intro haccess
      rw [haccess] at hhad
      exact Option.isNone_iff_eq_none.mp (by simpa using hhad.symm)
    constructor
    · intro n q h₁ h₂ h₃
      rw [hl.shrinks.other h₃, hg.shrinks.other h₂]
    · exact nofun
    · intro _ _ _ q
      rw [hl.shrinks.other hid.symm, hg.shrinks.other (previousName_ne id).symm]
    · intro hwell
      obtain ⟨h, hh⟩ := k.rename_root_isSome hid (hg.shrinks.other hprevious [] ▸ hstaging)
        (k.free_of_none (hhidden hwell.access))
      cases hh.symm.trans (hrefused hwell.publish)
    · intro hblocked _ hclash
      rw [← hg.dead hblocked.clearPrevious] at hclash
      exact absurd (hhidden hblocked.access) hclash.1

end

end

theorem spec_publish (hid : staging ≠ id)
    (hprevious : staging ≠ previousName id) (hstaging : f.entry [staging] ≠ none) :
    Spec (· = f) (publish faults id staging) (fun _ => Publication faults id staging f true)
      (fun _ => Publication faults id staging f false) := by
  refine spec_bind (spec_removePath faults.clearPrevious (cons_ne_nil _ []) f) fun _ => ?_
  refine spec_files fun g hg => spec_bind (spec_exchange _) fun b => ?_
  cases b with
  | true =>
    refine spec_fix fun h hh => ?_
    refine spec_bind (spec_removePath faults.drop (cons_ne_nil _ []) h) fun _ => spec_pure fun k hk => ?_
    exact publication_of_success hid hprevious hg rfl hh hk
  | false =>
    refine spec_fix fun h hh => spec_bind (spec_takeBack _) fun _ => spec_fix fun k hk => ?_
    refine spec_bind (spec_removePath faults.drop (cons_ne_nil _ []) k) fun _ => spec_throw fun l hl => ?_
    exact publication_of_failure hid hprevious hstaging hg rfl hh hk hl

end

end AeraRecovery.Plugins
