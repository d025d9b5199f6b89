import AeraRecovery.Plugins.Publish

namespace AeraRecovery.Plugins

open Lib Bytes Checks Commands Calls FileSystem Function List

section

variable (lib : Libraries)

def Installed (f : Files Bytes Bytes) (id : Bytes) : Prop := ∃ plugin ∈ scanRoot lib f, plugin.id = id

def SameDirectory (f g : Files Bytes Bytes) (id : Bytes) : Prop := ∀ q, g.entry (id :: q) = f.entry (id :: q)

structure Isolated (bundle : Bundle) (f : Files Bytes Bytes) (okay : Bool) (g : Files Bytes Bytes) : Prop where
  others : ∀ id, id ≠ bundle.plugin.id → Installed lib f id → SameDirectory f g id
  installed : okay = true → ∃ payload,
    hashMatches lib payload bundle.plugin.payloadSize bundle.plugin.payloadSha256 = true ∧
      ∀ q, g.entry (bundle.plugin.id :: q) = layout bundle payload q
  unchanged : okay = false → SameDirectory f g bundle.plugin.id

/-- The user has confirmed an unofficial package and its identity is the one that was shown. -/
def Confirmed (request : Request) (bundle : Bundle) : Prop :=
  (bundle.plugin.trust = .official ∨ request.allowUnofficial = true) ∧
    (request.id = [] ∨ request.id = bundle.plugin.id)

variable {f : Files Bytes Bytes}

theorem Installed.safeId {lib : Libraries} {id : Bytes} (h : Installed lib f id) :
    safeId id = true ∧ f.entry [id] ≠ none := by
  obtain ⟨plugin, hplugin, rfl⟩ := h
  obtain ⟨id, hlist, hid⟩ := mem_filterMap.mp hplugin
  revert hid
  cases hsafe : Plugins.safeId id <;> cases pluginAt lib f [id] <;> intro hid
  · cases hid
  · cases hid
  · cases hid
  · dsimp only at hid
    split_ifs at hid with heq
    cases hid
    rw [heq]
    exact ⟨hsafe, f.mem_list.mp hlist⟩

variable {lib}

theorem parsePlugin_ok {text : Bytes} {plugin : Plugin} (h : parsePlugin lib text = .ok plugin) :
    safeId plugin.id = true ∧ plugin.payloadName ∈ [ascii "runtime.xz", ascii "font.ttf", ascii "font.otf"] := by
  simp only [parsePlugin, bind_ok_iff, ensure_ok_iff, pure_ok_iff] at h
  obtain ⟨plugin, -, -, -, -, -, -, hpolicy, -, -, rfl⟩ := h
  simp only [Plugin.policyOk, Bool.and_eq_true, and_assoc] at hpolicy
  obtain ⟨hsafe, -, -, -, -, -, -, -, hname, -⟩ := hpolicy
  refine ⟨hsafe, ?_⟩
  by_cases htheme : plugin.themeExtension = true
  · simp only [Plugin.themeExtension, Bool.and_eq_true, Bool.or_eq_true, decide_eq_true_eq, and_assoc] at htheme
    obtain ⟨-, -, -, -, -, hfont, -⟩ := htheme
    rcases hfont with h | h <;> simp [h]
  · rw [if_neg htheme, decide_eq_true_eq] at hname
    rw [hname]
    exact mem_cons_self

variable {bundle : Bundle}

theorem openLocalBundle_ok {package : Package} (h : openLocalBundle lib package = .ok bundle) :
    safeId bundle.plugin.id = true ∧
      bundle.plugin.payloadName ∈ [ascii "runtime.xz", ascii "font.ttf", ascii "font.otf"] := by
  simp only [openLocalBundle, bind_ok_iff, ensure_ok_iff, pure_ok_iff] at h
  obtain ⟨_, _, _, _, _, _, _, _, _, _, _, _, _, _, _, _, _, _, _, _, _, _, plugin, hplugin, _, _, rfl⟩ := h
  have hok := parsePlugin_ok hplugin
  exact hok

theorem Clash.congr {g : Files Bytes Bytes} {id : Bytes} (hid : SameDirectory f g id)
    (hprevious : SameDirectory f g (previousName id)) (h : Clash f id) : Clash g id := by
  obtain ⟨hsome, hleft, hfree, q, hq⟩ := h
  refine ⟨?_, ?_, ⟨?_, ?_⟩, q, ?_⟩
  · rw [hid []]
    exact hsome
  · rw [hprevious []]
    exact hleft
  · rw [g.list_eq_nil_iff]
    intro q hq
    exact (hid q).trans (f.list_eq_nil_iff.mp hfree.1 q hq)
  · rw [hid [], hprevious []]
    exact hfree.2
  · rw [hid q, hprevious q]
    exact hq

def Outcome (lib : Libraries) (faults : Faults) (request : Request) (bundle : Bundle) (staging : Bytes)
    (f : Files Bytes Bytes) (okay : Bool) (g : Files Bytes Bytes) : Prop :=
  okay = false ∧ Outside f staging g ∧ ¬ (Confirmed request bundle ∧ faults.StagesWell ∧ Intact lib bundle) ∨
    Confirmed request bundle ∧ Intact lib bundle ∧ ∃ h, Staging f staging (layout bundle bundle.payload.data.1) h ∧
      Publication faults bundle.plugin.id staging h okay g

theorem spec_installLocal {faults : Faults} {pid : Nat} {location : Location} {request : Request}
    (hopen : openLocalBundle lib request.package = .ok bundle) (f : Files Bytes Bytes) :
    Spec (· = f) (installLocal lib faults pid location request)
      (fun _ => Outcome lib faults request bundle (stagingName bundle.plugin.id pid) f true)
      (fun _ => Outcome lib faults request bundle (stagingName bundle.plugin.id pid) f false) := by
  obtain ⟨hsafe, hname⟩ := openLocalBundle_ok hopen
  have hid := (ne_stagingName hsafe bundle.plugin.id pid).symm
  have hprevious := (previousName_ne_stagingName hsafe bundle.plugin.id pid).symm
  rw [installLocal, hopen]
  refine triple_check (fun htrust => triple_check (fun hrequest => ?_) fun hrequest m hm => ?_) fun htrust m hm => ?_
  · refine spec_bind ((spec_stage hname).error fun e g hg => ?_) fun _ => spec_fix fun h hh => ?_
    · exact .inl ⟨rfl, hg.1, fun hall => hg.2 hall.2⟩
    · have hstaged : h.entry [stagingName bundle.plugin.id pid] ≠ none := by
        rw [hh.2.inside [], layout, update_of_ne (cons_ne_nil _ []).symm, signed_nil]
        · exact Option.some_ne_none _
        · rw [update_of_ne (cons_ne_nil _ []).symm]
          exact update_self _ _ _
      refine ((spec_publish hid hprevious hstaged).mono (fun _ h => h) fun _ g hg => ?_).error fun _ g hg => ?_
      · exact .inr ⟨⟨htrust, hrequest⟩, hh.1, h, hh.2, hg⟩
      · exact .inr ⟨⟨htrust, hrequest⟩, hh.1, h, hh.2, hg⟩
  · exact .inl ⟨rfl, fun n q _ => by rw [hm], fun hall => hrequest hall.1.2⟩
  · exact .inl ⟨rfl, fun n q _ => by rw [hm], fun hall => htrust hall.1.1⟩

theorem Outcome.isolated {faults : Faults} {request : Request} {pid : Nat} {g : Files Bytes Bytes}
    {okay : Bool} (hsafe : safeId bundle.plugin.id = true) (hundo : faults.undo = false)
    (hclear : Confirmed request bundle → Intact lib bundle →
      ¬ Installed lib f (previousName bundle.plugin.id) ∧ ¬ Clash f bundle.plugin.id)
    (h : Outcome lib faults request bundle (stagingName bundle.plugin.id pid) f okay g) :
    Isolated lib bundle f okay g := by
  have hid := ne_stagingName hsafe bundle.plugin.id pid
  have hprevious := previousName_ne_stagingName hsafe bundle.plugin.id pid
  rcases h with ⟨rfl, houtside, -⟩ | ⟨hconfirmed, hintact, h, hstaged, hg⟩
  · refine ⟨fun id _ hinstalled q => ?_, nofun, fun _ q => houtside _ q hid⟩
    exact houtside id q (ne_stagingName hinstalled.safeId.1 bundle.plugin.id pid)
  · obtain ⟨hfree, hclash⟩ := hclear hconfirmed hintact
    refine ⟨fun id hne hinstalled q => ?_, fun hokay => ⟨_, hintact.2, fun q => ?_⟩, fun hokay q => ?_⟩
    · have hstaging := ne_stagingName hinstalled.safeId.1 bundle.plugin.id pid
      have hne' : id ≠ previousName bundle.plugin.id := by
        rintro rfl
        exact hfree hinstalled
      rw [hg.others id q hne hne' hstaging, hstaged.outside id q hstaging]
    · rw [hg.fresh hokay q, hstaged.inside q]
    · rw [hg.old hokay hundo (fun h => hclash ?_) q, hstaged.outside _ q hid]
      exact h.congr (fun q => (hstaged.outside _ q hid).symm) fun q => (hstaged.outside _ q hprevious).symm

section

variable {request : Request} {bundle : Bundle} (pid : Nat) (location : Location)

section

variable (hopen : openLocalBundle lib request.package = .ok bundle)

include hopen

theorem installLocal_outcome (faults : Faults) (m : Store) :
    Outcome lib faults request bundle (stagingName bundle.plugin.id pid) m.files
      ((installLocal lib faults pid location request).start m).1.toBool
      ((installLocal lib faults pid location request).start m).2.files := by
  have hspec : Spec (· = m.files) (installLocal lib faults pid location request) _ _ := spec_installLocal hopen m.files
  have hrun := hspec m rfl
  revert hrun
  rcases (installLocal lib faults pid location request).start m with ⟨e | u, m'⟩ <;> exact id

section

variable (hconfirmed : Confirmed request bundle) (hintact : Intact lib bundle) (m : Store)

include hconfirmed hintact

/-- An installation without a failing call removes what is at the backup path. -/
theorem installLocal_removes :
    ((installLocal lib {} pid location request).start m).2.files.entry [previousName bundle.plugin.id] = none := by
  rcases installLocal_outcome pid location hopen {} m with ⟨-, -, h⟩ | ⟨-, -, h, -, hg⟩
  · exact absurd ⟨hconfirmed, ⟨rfl, fun _ => rfl, rfl, rfl, rfl, rfl, rfl⟩, hintact⟩ h
  · exact (hg.complete ⟨fun _ => rfl, rfl, rfl, rfl, fun _ => rfl⟩).2

theorem installLocal_blocked (hclash : Clash m.files bundle.plugin.id) :
    ((installLocal lib { clearPrevious := fun _ => true, aside := true } pid location request).start m).1.toBool = false ∧
      ∀ q, ((installLocal lib { clearPrevious := fun _ => true, aside := true } pid location request).start m).2.files.entry
        (bundle.plugin.id :: q) = m.files.entry (previousName bundle.plugin.id :: q) := by
  obtain ⟨hsafe, -⟩ := openLocalBundle_ok hopen
  have hid := ne_stagingName hsafe bundle.plugin.id pid
  have hprevious := previousName_ne_stagingName hsafe bundle.plugin.id pid
  rcases installLocal_outcome pid location hopen { clearPrevious := fun _ => true, aside := true } m with
    ⟨-, -, h⟩ | ⟨-, -, h, hstaged, hg⟩
  · exact absurd ⟨hconfirmed, ⟨rfl, fun _ => rfl, rfl, rfl, rfl, rfl, rfl⟩, hintact⟩ h
  · obtain ⟨hfail, hentry⟩ := hg.blocked ⟨fun _ => rfl, rfl, rfl⟩ rfl
      (hclash.congr (fun q => hstaged.outside _ q hid) fun q => hstaged.outside _ q hprevious)
    refine ⟨hfail, fun q => ?_⟩
    rw [hentry q, hstaged.outside _ q hprevious]

end

end

theorem installLocal_isolated_iff (hopen : openLocalBundle lib request.package = .ok bundle) (m : Store) :
    (∀ faults : Faults, faults.undo = false →
      Isolated lib bundle m.files ((installLocal lib faults pid location request).start m).1.toBool
        ((installLocal lib faults pid location request).start m).2.files) ↔
    (Confirmed request bundle → Intact lib bundle →
      ¬ Installed lib m.files (previousName bundle.plugin.id) ∧ ¬ Clash m.files bundle.plugin.id) := by
  constructor
  · intro h hconfirmed hintact
    constructor
    · intro hinstalled
      have hsame := (h {} rfl).others _ (previousName_ne _) hinstalled []
      rw [installLocal_removes pid location hopen hconfirmed hintact m] at hsame
      exact hinstalled.safeId.2 hsame.symm
    · intro hclash
      obtain ⟨hfail, hentry⟩ := installLocal_blocked pid location hopen hconfirmed hintact m hclash
      obtain ⟨-, -, -, q, hq⟩ := hclash
      have hsame := (h { clearPrevious := fun _ => true, aside := true } rfl).unchanged hfail q
      exact hq ((hentry q).symm.trans hsame)
  · intro h faults hundo
    exact (installLocal_outcome pid location hopen faults m).isolated (openLocalBundle_ok hopen).1 hundo h

end

section

def textField (name : String) (value : Bytes) : Bytes :=
  ascii "\"" ++ ascii name ++ ascii "\":\"" ++ value ++ ascii "\","

def fontHash : Bytes := ascii "4bf5122f344554c53bde2ebb8cd2b7e3" ++ ascii "d1600ad631c385a5d7cce23c7785459a"

def fontText (id : Bytes) : Bytes :=
  ascii "\x7b" ++ textField "id" id ++ textField "name" (ascii "A") ++ textField "version" (ascii "1") ++
    textField "type" (ascii "theme-extension") ++ textField "entry" (ascii "font") ++
    textField "payload" (ascii "font.ttf") ++ textField "payload_sha256" fontHash ++
    textField "font_family" (ascii "A") ++ ascii "\"payload_size\":1," ++ ascii "\"min_host_api\":1," ++
    ascii "\"schema\":1\x7d"

def fontPlugin (id : Bytes) : Plugin where
  id := id
  name := ascii "A"
  version := ascii "1"
  description := []
  type := ascii "theme-extension"
  entry := ascii "font"
  payloadName := ascii "font.ttf"
  payloadSha256 := fontHash
  payloadSize := 1
  minHostApi := 1
  fontFamily := ascii "A"

def sampleLibraries : Libraries where
  readJson text :=
    if text = fontText (ascii "a") then some (fontPlugin (ascii "a"))
    else if text = fontText (ascii "a.previous") then some (fontPlugin (ascii "a.previous")) else none
  verify _ _ := false
  sha256 _ := [0x4b, 0xf5, 0x12, 0x2f, 0x34, 0x45, 0x54, 0xc5, 0x3b, 0xde, 0x2e, 0xbb, 0x8c, 0xd2, 0xb7, 0xe3, 0xd1, 0x60,
    0x0a, 0xd6, 0x31, 0xc3, 0x85, 0xa5, 0xd7, 0xcc, 0xe2, 0x3c, 0x77, 0x85, 0x45, 0x9a]

def fontPayload : ZipEntry := ⟨1, some [1], [1], true⟩

def sampleRequest : Request where
  id := []
  package := {
    path := ascii "/sdcard/a.aerap"
    size := some 640
    archive := some ⟨2, true, [(ascii "plugin.json", ⟨243, some (fontText (ascii "a")), fontText (ascii "a"), true⟩),
      (ascii "font.ttf", fontPayload)]⟩ }
  allowUnofficial := true

def sampleBundle : Bundle := ⟨fontText (ascii "a"), none, fontPlugin (ascii "a"), fontPayload⟩

def sampleStore : Store where
  files := .ofList [([ascii "a.previous"], .dir),
    ([ascii "a.previous", ascii "plugin.json"], .file (fontText (ascii "a.previous"))),
    ([ascii "a.previous", ascii "font.ttf"], .file [1])]
  calls := 0

theorem length_fontText (id : Bytes) : (fontText id).length = id.length + (fontText []).length := by
  simp only [fontText, textField, length_append, length_nil]
  omega

theorem readJson_a : sampleLibraries.readJson (fontText (ascii "a")) = some (fontPlugin (ascii "a")) := by
  simp only [sampleLibraries, if_true]

theorem readJson_a_previous :
    sampleLibraries.readJson (fontText (ascii "a.previous")) = some (fontPlugin (ascii "a.previous")) := by
  have hne : fontText (ascii "a.previous") ≠ fontText (ascii "a") := by
    intro h
    have hlength := congrArg length h
    rw [length_fontText, length_fontText (ascii "a")] at hlength
    exact absurd (Nat.add_right_cancel hlength) (by decide)
  simp only [sampleLibraries, if_neg hne, if_true]

theorem parsePlugin_font {id : Bytes} (h : sampleLibraries.readJson (fontText id) = some (fontPlugin id))
    (hpolicy : (fontPlugin id).policyOk = true) : parsePlugin sampleLibraries (fontText id) = .ok (fontPlugin id) := by
  have hcommands : (fontPlugin id).commandsOk = true := by rfl
  have hpermissions : (fontPlugin id).permissionsOk = true := by rfl
  have hruntime : (fontPlugin id).runtimeOk = true := by rfl
  simp only [parsePlugin, bind_ok_iff, ensure_ok_iff, pure_ok_iff, require_ok_iff]
  exact ⟨_, h, (), hcommands, (), hpermissions, (), hpolicy, (), hruntime, rfl⟩

theorem sample_open : openLocalBundle sampleLibraries sampleRequest.package = .ok sampleBundle := by
  have hparse := parsePlugin_font readJson_a (by decide)
  simp only [openLocalBundle, bind_ok_iff, ensure_ok_iff, pure_ok_iff, require_ok_iff]
  refine ⟨(), by decide, 640, rfl, (), by decide, _, rfl, (), by decide, (), rfl, _, rfl, _, rfl, _, rfl, _, rfl, none, rfl,
    _, hparse, (), by decide, rfl⟩

theorem sample_installed : Installed sampleLibraries sampleStore.files (previousName (ascii "a")) := by
  have hfit : (fontText (ascii "a.previous")).length ≤ kMaxManifest := by decide +kernel
  have hentry : sampleStore.files.entry [ascii "a.previous", ascii "plugin.json"] =
      some (.file (fontText (ascii "a.previous"))) := rfl
  have hread : readBounded sampleStore.files [ascii "a.previous", ascii "plugin.json"] kMaxManifest =
      some (fontText (ascii "a.previous")) := by simp only [readBounded, hentry, if_pos hfit]
  have hparse := parsePlugin_font readJson_a_previous (by decide)
  have hplugin : pluginAt sampleLibraries sampleStore.files [ascii "a.previous"] = .ok (fontPlugin (ascii "a.previous")) := by
    simp only [pluginAt, bind_ok_iff, ensure_ok_iff, pure_ok_iff, require_ok_iff]
    exact ⟨_, hread, _, hparse, (), rfl, rfl⟩
  refine ⟨fontPlugin (ascii "a.previous"), mem_filterMap.mpr ⟨ascii "a.previous", ?_, ?_⟩, by decide⟩
  · exact sampleStore.files.mem_list.mpr (by decide)
  · rw [hplugin]
    rfl

theorem installLocal_removes_other :
    ¬ ∀ faults : Faults, faults.undo = false → Isolated sampleLibraries sampleBundle sampleStore.files
      ((installLocal sampleLibraries faults 1 .storage sampleRequest).start sampleStore).1.toBool
      ((installLocal sampleLibraries faults 1 .storage sampleRequest).start sampleStore).2.files := by
  intro h
  have hgone := installLocal_removes 1 .storage sample_open ⟨.inr rfl, .inl rfl⟩ ⟨rfl, by decide⟩ sampleStore
  have hsame := (h {} rfl).others _ (previousName_ne _) sample_installed []
  exact sample_installed.safeId.2 (hsame.symm.trans hgone)

/-- The same font is there already, and nothing is in the way of installing it again. -/
def installedStore : Store where
  files := .ofList [([ascii "a"], .dir), ([ascii "a", ascii "plugin.json"], .file (fontText (ascii "a"))),
    ([ascii "a", ascii "font.ttf"], .file [1])]
  calls := 0

theorem installLocal_isolated_again : openLocalBundle sampleLibraries sampleRequest.package = .ok sampleBundle ∧
      ∀ faults : Faults, faults.undo = false → Isolated sampleLibraries sampleBundle installedStore.files
        ((installLocal sampleLibraries faults 1 .storage sampleRequest).start installedStore).1.toBool
        ((installLocal sampleLibraries faults 1 .storage sampleRequest).start installedStore).2.files := by
  refine ⟨sample_open, (installLocal_isolated_iff 1 .storage sample_open installedStore).mpr fun _ _ => ⟨?_, ?_⟩⟩
  · rintro ⟨plugin, hplugin, hid⟩
    obtain ⟨name, hname, hat⟩ := mem_filterMap.mp hplugin
    have hnone : installedStore.files.entry [previousName (ascii "a")] = none := rfl
    have hlisted := installedStore.files.mem_list.mp hname
    split at hat
    · obtain ⟨hsame, ⟨⟩⟩ := Option.ite_none_right_eq_some.mp hat
      rw [← hsame, hid] at hlisted
      exact hlisted hnone
    all_goals cases hat
  · intro hclash
    exact hclash.2.1 rfl

end

end

end AeraRecovery.Plugins
