import AeraRecovery.Abl.Safety
import AeraRecovery.Abl.Session

namespace AeraRecovery.Abl.ExitWarning

open Lib Bytes Inspect Session List Option String Set

open Read (AblSample readExtent)

theorem append_separator_inj {α : Type} {c : α} {a a' b b' : List α} (ha : c ∉ a) (ha' : c ∉ a')
    (h : a ++ c :: b = a' ++ c :: b') : a = a' ∧ b = b' := by
  induction a generalizing a' with
  | nil =>
    cases a' with
    | nil => exact ⟨rfl, (cons.inj h).2⟩
    | cons x a' => exact absurd (mem_cons.mpr (.inl (cons.inj h).1)) ha'
  | cons x a ih =>
    cases a' with
    | nil => exact absurd (mem_cons.mpr (.inl (cons.inj h).1.symm)) ha
    | cons x' a' =>
      obtain ⟨rfl, hrest⟩ := cons.inj h
      obtain ⟨rfl, rfl⟩ :=
        ih (fun hc => ha (mem_cons_of_mem _ hc)) (fun hc => ha' (mem_cons_of_mem _ hc)) hrest
      exact ⟨rfl, rfl⟩

def tokens (changes : List Change) : String := changes.foldl (fun token c => token ++ c.token) ""

def Plain (c : Change) : Prop := ':' ∉ c.name.toList ∧ ':' ∉ c.seen.toList

theorem toList_foldl {α : Type} (f : α → String) (l : List α) (start : String) :
    (l.foldl (fun text a => text ++ f a) start).toList = start.toList ++ l.flatMap fun a => (f a).toList := by
  induction l generalizing start with
  | nil => simp
  | cons a l ih => simp [ih]

theorem toList_tokens (changes : List Change) : (tokens changes).toList = changes.flatMap fun c => c.token.toList :=
  toList_foldl Change.token changes ""

theorem token_append_inj {c c' : Change} (hc : Plain c) (hc' : Plain c') {rest rest' : List Char}
    (h : c.token.toList ++ rest = c'.token.toList ++ rest') : c = c' ∧ rest = rest' := by
  have hshape : ∀ (c : Change) (rest : List Char), c.token.toList ++ rest = c.name.toList ++ ':' :: (c.seen.toList ++
      ':' :: ((if c.absent then "absent" else "unknown").toList ++ ';' :: rest)) := by
    simp [Change.token]
  rw [hshape, hshape] at h
  obtain ⟨hname, h⟩ := append_separator_inj hc.1 hc'.1 h
  obtain ⟨hseen, h⟩ := append_separator_inj hc.2 hc'.2 h
  have hfree : ∀ absent : Bool, ';' ∉ (if absent then "absent" else "unknown").toList := by decide
  obtain ⟨habsent, hrest⟩ := append_separator_inj (hfree _) (hfree _) h
  have hbool : c.absent = c'.absent := by
    revert habsent
    generalize c.absent = a, c'.absent = a'
    revert a a'
    decide
  obtain ⟨name', seen', absent'⟩ := c'
  obtain rfl := toList_inj.mp hname
  obtain rfl := toList_inj.mp hseen
  obtain rfl := hbool
  exact ⟨rfl, hrest⟩

theorem tokens_inj {changes changes' : List Change} (hc : ∀ c ∈ changes, Plain c) (hc' : ∀ c ∈ changes', Plain c)
    (h : tokens changes = tokens changes') : changes = changes' := by
  have hlist := congrArg String.toList h
  rw [toList_tokens, toList_tokens] at hlist
  clear h
  have hne : ∀ c : Change, c.token.toList ≠ [] := by simp [Change.token]
  induction changes generalizing changes' with
  | nil =>
    cases changes' with
    | nil => rfl
    | cons c' changes' => simp [hne] at hlist
  | cons c changes ih =>
    cases changes' with
    | nil => simp [hne] at hlist
    | cons c' changes' =>
      obtain ⟨hfirst, hrest⟩ := forall_mem_cons.mp hc
      obtain ⟨hfirst', hrest'⟩ := forall_mem_cons.mp hc'
      obtain ⟨rfl, htail⟩ := token_append_inj hfirst hfirst' hlist
      rw [ih hrest hrest' htail]

theorem foldl_warning (changes : List Change) (w : AblWarning) :
    changes.foldl (fun w c => (⟨w.text ++ c.text, w.token ++ c.token⟩ : AblWarning)) w =
      ⟨changes.foldl (fun text c => text ++ c.text) w.text,
        changes.foldl (fun token c => token ++ c.token) w.token⟩ := by
  induction changes generalizing w with
  | nil => rfl
  | cons c changes ih => exact ih _

theorem check_token (s : AblSession) (samples : List AblSample) :
    (s.check samples).token = tokens (s.changes samples) := by
  rw [AblSession.check, foldl_warning]
  split_ifs
  · rfl
  · rfl

theorem check_text (s : AblSession) (samples : List AblSample) :
    (s.check samples).text = "" ↔ s.changes samples = [] := by
  have hne : ∀ c : Change, c.text.toList ≠ [] := by
    rintro ⟨name, seen, _ | _⟩ <;> simp [Change.text]
  have hempty : (s.changes samples).foldl (fun text c => text ++ c.text) "" = "" ↔ s.changes samples = [] := by
    rw [← toList_inj, toList_foldl]
    cases s.changes samples with
    | nil => simp
    | cons c changes => simp [hne]
  rw [AblSession.check, foldl_warning]
  split_ifs with h
  · exact hempty
  · refine iff_of_false ?_ (mt hempty.mpr h)
    intro htext
    have hlist := congrArg String.toList htext
    rw [toList_append] at hlist
    exact h (toList_inj.mp (append_eq_nil_iff.mp hlist).1)

section

variable (lzma : Option Lzma) (sha256 : Bytes → Bytes)

def Valid (contents : Set Bytes) (sample : AblSample) : Prop :=
  sample.digest = "" ∧ sample.status = .unknown ∨
    ∃ bytes ∈ contents, sample.digest = hash sha256 bytes ∧ sample.status = inspectAbl lzma bytes

def current (d : Devices) : List AblSample := discoverSamples lzma sha256 d []

def changes (before now : Devices) : List Change :=
  AblSession.changes ⟨true, current lzma sha256 before⟩ (current lzma sha256 now)

end

section

variable {sha256 : Bytes → Bytes} (hlength : ∀ bytes, (sha256 bytes).length = 32)

theorem exists_digit_of_mem_hex {p : Bytes} {c : UInt8} (h : c ∈ Hex.hex p) : ∃ n < 16, c = Hex.digit n := by
  obtain ⟨b, -, hc⟩ := mem_flatMap.mp h
  have hb := b.toNat_lt
  simp only [mem_cons, not_mem_nil, or_false] at hc
  rcases hc with rfl | rfl
  · exact ⟨_, by omega, rfl⟩
  · exact ⟨_, by omega, rfl⟩

theorem ofUInt8_injective : Function.Injective Char.ofUInt8 := by
  intro a b h
  have hnat := congrArg (fun c : Char => c.val.toNat) h
  simpa [Char.ofUInt8, UInt8.toNat_inj] using hnat

theorem hash_inj {a b : Bytes} (h : hash sha256 a = hash sha256 b) : sha256 a = sha256 b := by
  have hhex := map_injective_iff.mpr ofUInt8_injective (ofList_injective h)
  have := congrArg Hex.unhex hhex
  rw [Hex.unhex_hex, Hex.unhex_hex] at this
  exact some.inj this

include hlength in
theorem hash_ne_empty (bytes : Bytes) : hash sha256 bytes ≠ "" := by
  intro h
  have hlist := congrArg (fun s : String => s.toList.length) h
  simp [Session.hash, Hex.length_hex, hlength] at hlist

theorem plain_hash (bytes : Bytes) : ':' ∉ (hash sha256 bytes).toList := by
  rw [Session.hash, toList_ofList]
  intro h
  obtain ⟨x, hx, hcolon⟩ := mem_map.mp h
  obtain ⟨n, hn, rfl⟩ := exists_digit_of_mem_hex hx
  exact (show ∀ n < 16, Char.ofUInt8 (Hex.digit n) ≠ ':' by decide) n hn hcolon

end

section

variable {lzma : Option Lzma} {sha256 : Bytes → Bytes} (hlength : ∀ bytes, (sha256 bytes).length = 32)
  {contents : Set Bytes} (hinj : InjOn sha256 contents)

theorem valid_readAbl {m : Medium} (name : String) (hm : ∀ bytes, m.contents = some bytes → bytes ∈ contents) :
    Valid lzma sha256 contents (readAbl lzma sha256 m name []) := by
  rw [readAbl]
  cases hbytes : m.contents with
  | none => exact .inl ⟨rfl, rfl⟩
  | some bytes => exact .inr ⟨bytes, hm bytes hbytes, rfl, rfl⟩

include hlength hinj in
theorem Valid.status_eq {sample : AblSample} (h : Valid lzma sha256 contents sample) {bytes : Bytes}
    (hbytes : bytes ∈ contents) (hdigest : sample.digest = hash sha256 bytes) :
    sample.status = inspectAbl lzma bytes := by
  rcases h with ⟨hempty, -⟩ | ⟨old, hold, holddigest, hstatus⟩
  · exact absurd (hdigest.symm.trans hempty) (hash_ne_empty hlength bytes)
  · rw [hstatus, hinj hold hbytes (hash_inj (holddigest.symm.trans hdigest))]

include hlength hinj in
theorem readAbl_cache {m : Medium} {cache : List AblSample} (name : String)
    (hm : ∀ bytes, m.contents = some bytes → bytes ∈ contents)
    (hcache : ∀ sample ∈ cache, Valid lzma sha256 contents sample) :
    readAbl lzma sha256 m name cache = readAbl lzma sha256 m name [] := by
  rw [readAbl, readAbl]
  cases hbytes : m.contents with
  | none => rfl
  | some bytes =>
    dsimp only
    cases hfind : cache.find? fun previous => previous.name = name ∧ previous.digest = hash sha256 bytes with
    | none => rfl
    | some previous =>
      have hhit : previous.name = name ∧ previous.digest = hash sha256 bytes := by simpa using find?_some hfind
      have hvalid := hcache previous (mem_of_find?_eq_some hfind)
      have hstatus := hvalid.status_eq hlength hinj (hm bytes hbytes) hhit.2
      simp only [hstatus, find?_nil]

include hlength hinj in
theorem discoverSamples_cache {d : Devices} {cache : List AblSample}
    (hd : ∀ name bytes, d.contents name = some bytes → bytes ∈ contents)
    (hcache : ∀ sample ∈ cache, Valid lzma sha256 contents sample) :
    discoverSamples lzma sha256 d cache = current lzma sha256 d := by
  rw [current, discoverSamples, discoverSamples]
  refine filterMap_congr fun name _ => ?_
  cases hm : d.medium name with
  | none => rfl
  | some m =>
    refine congrArg some (readAbl_cache hlength hinj name (fun bytes hbytes => hd name bytes ?_) hcache)
    rw [Devices.contents, hm, bind_some, hbytes]

theorem valid_current {d : Devices} (hd : ∀ name bytes, d.contents name = some bytes → bytes ∈ contents) :
    ∀ sample ∈ current lzma sha256 d, Valid lzma sha256 contents sample := by
  intro sample hsample
  obtain ⟨name, -, hname⟩ := mem_filterMap.mp hsample
  obtain ⟨m, hm, rfl⟩ := map_eq_some_iff.mp hname
  refine valid_readAbl name fun bytes hbytes => hd name bytes ?_
  rw [Devices.contents, hm, bind_some, hbytes]

end

theorem find?_filterMap {f : String → Option AblSample} (hf : ∀ name sample, f name = some sample → sample.name = name)
    {l : List String} {name : String} (h : name ∈ l ∨ f name = none) :
    ((l.filterMap f).find? fun item => item.name = name) = f name := by
  induction l with
  | nil =>
    rw [h.resolve_left not_mem_nil]
    rfl
  | cons n l ih =>
    cases hn : f n with
    | none =>
      rw [filterMap_cons_none hn]
      apply ih
      rcases h with h | h
      · rcases mem_cons.mp h with rfl | h
        · exact .inr hn
        · exact .inl h
      · exact .inr h
    | some sample =>
      rw [filterMap_cons_some hn]
      by_cases heq : n = name
      · rw [find?_cons_of_pos (by simp [hf n sample hn, heq]), ← heq, hn]
      · rw [find?_cons_of_neg (by simp [hf n sample hn, heq])]
        exact ih (h.imp_left fun h => (mem_cons.mp h).resolve_left (Ne.symm heq))

section

variable {lzma : Option Lzma} {sha256 : Bytes → Bytes}

theorem readAbl_nil (m : Medium) (name : String) : readAbl lzma sha256 m name [] = match m.contents with
      | none => ⟨name, "", .unknown⟩
      | some image => ⟨name, hash sha256 image, inspectAbl lzma image⟩ := by
  rw [readAbl]
  cases m.contents with
  | none | some image => rfl

theorem find?_current (d : Devices) {name : String} (hname : name ∈ names) :
    ((current lzma sha256 d).find? fun item => item.name = name) =
      (d.medium name).map fun m => readAbl lzma sha256 m name [] := by
  refine find?_filterMap (f := fun name => (d.medium name).map fun m => readAbl lzma sha256 m name []) ?_ (.inl hname)
  intro name sample h
  obtain ⟨m, -, rfl⟩ := map_eq_some_iff.mp h
  rw [readAbl_nil]
  cases m.contents with
  | none | some bytes => rfl

theorem mem_current_loader {d : Devices} {sample : AblSample} :
    sample ∈ current lzma sha256 d ∧ sample.status = .efispLoader ↔
      ∃ name ∈ names, ∃ bytes, d.contents name = some bytes ∧ inspectAbl lzma bytes = .efispLoader ∧
        sample = ⟨name, hash sha256 bytes, .efispLoader⟩ := by
  rw [current, discoverSamples, mem_filterMap]
  constructor
  · rintro ⟨⟨name, hname, h⟩, hstatus⟩
    obtain ⟨m, hm, rfl⟩ := map_eq_some_iff.mp h
    rw [readAbl_nil] at hstatus ⊢
    cases hbytes : m.contents with
    | none =>
      rw [hbytes] at hstatus
      cases hstatus
    | some bytes =>
      rw [hbytes] at hstatus
      refine ⟨name, hname, bytes, ?_, hstatus, ?_⟩
      · rw [Devices.contents, hm, bind_some, hbytes]
      · exact congrArg (AblSample.mk name _) hstatus
  · rintro ⟨name, hname, bytes, hbytes, hstatus, rfl⟩
    obtain ⟨m, hm, hm'⟩ := bind_eq_some_iff.mp hbytes
    refine ⟨⟨name, hname, ?_⟩, rfl⟩
    rw [hm, map_some, readAbl_nil, hm']
    exact congrArg (fun status => some (AblSample.mk name _ status)) hstatus

variable (lzma) in
def Kept (before now : Devices) : Prop :=
  ∀ name ∈ names, ∀ old, before.contents name = some old → inspectAbl lzma old = .efispLoader →
    ∃ new, now.contents name = some new ∧ (new = old ∨ inspectAbl lzma new = .efispLoader)

theorem change_eq_none (hlength : ∀ bytes, (sha256 bytes).length = 32) {now : Devices} {name : String}
    (hname : name ∈ names) (old : Bytes) :
    change (current lzma sha256 now) ⟨name, hash sha256 old, .efispLoader⟩ = none ↔
      ∃ new, now.contents name = some new ∧ (sha256 new = sha256 old ∨ inspectAbl lzma new = .efispLoader) := by
  rw [change, if_neg (by simp)]
  rw [find?_current now hname, Devices.contents]
  cases now.medium name with
  | none => simp
  | some m =>
    rw [map_some, readAbl_nil, bind_some]
    cases m.contents with
    | none => simp
    | some new =>
      have hne := hash_ne_empty hlength new
      have hiff : hash sha256 new = hash sha256 old ↔ sha256 new = sha256 old :=
        ⟨hash_inj, fun h => by rw [Session.hash, h, Session.hash]⟩
      by_cases hsame : sha256 new = sha256 old
      · simp [hiff, hsame, hne]
      · by_cases hloader : inspectAbl lzma new = .efispLoader
        · simp [hloader]
        · simp [hiff, hsame, hloader]

theorem changes_eq_nil (hlength : ∀ bytes, (sha256 bytes).length = 32) {contents : Set Bytes}
    (hinj : InjOn sha256 contents) {before now : Devices}
    (hbefore : ∀ name bytes, before.contents name = some bytes → bytes ∈ contents)
    (hnow : ∀ name bytes, now.contents name = some bytes → bytes ∈ contents) :
    changes lzma sha256 before now = [] ↔ Kept lzma before now := by
  rw [changes, AblSession.changes, filterMap_eq_nil_iff]
  constructor
  · intro h name hname old hold hloader
    obtain ⟨hsample, -⟩ : ⟨name, hash sha256 old, .efispLoader⟩ ∈ current lzma sha256 before ∧ _ = _ :=
      mem_current_loader.mpr ⟨name, hname, old, hold, hloader, rfl⟩
    obtain ⟨new, hnew, hkeep⟩ := (change_eq_none hlength hname old).mp (h _ hsample)
    exact ⟨new, hnew, hkeep.imp_left fun h => hinj (hnow name new hnew) (hbefore name old hold) h⟩
  · intro h sample hsample
    by_cases hstatus : sample.status = .efispLoader
    · obtain ⟨name, hname, old, hold, hloader, rfl⟩ := mem_current_loader.mp ⟨hsample, hstatus⟩
      obtain ⟨new, hnew, hkeep⟩ := h name hname old hold hloader
      exact (change_eq_none hlength hname old).mpr ⟨new, hnew, hkeep.imp_left fun h => by rw [h]⟩
    · exact if_pos hstatus

theorem name_of_mem_current {d : Devices} {sample : AblSample} (h : sample ∈ current lzma sha256 d) :
    sample.name ∈ names ∧ ':' ∉ sample.digest.toList := by
  obtain ⟨name, hname, h⟩ := mem_filterMap.mp h
  obtain ⟨m, -, rfl⟩ := map_eq_some_iff.mp h
  rw [readAbl_nil]
  cases m.contents with
  | none => exact ⟨hname, by simp⟩
  | some bytes => exact ⟨hname, plain_hash bytes⟩

theorem plain_changes (before now : Devices) : ∀ c ∈ changes lzma sha256 before now, Plain c := by
  intro c hc
  obtain ⟨sample, hsample, h⟩ := mem_filterMap.mp hc
  have hname : ':' ∉ sample.name.toList :=
    (show ∀ name ∈ names, ':' ∉ name.toList by decide) _ (name_of_mem_current hsample).1
  rw [change] at h
  split at h
  · cases h
  · split at h
    · cases h
      exact ⟨hname, show ':' ∉ "unreadable".toList by decide⟩
    · rename_i now' hfind
      split_ifs at h
      cases h
      exact ⟨hname, (name_of_mem_current (mem_of_find?_eq_some hfind)).2⟩

end

variable (calls : List Call)

def captured : Option Devices :=
  calls.findSome? fun
    | .captureAblBaseline d => some d
    | _ => none

def lastAcknowledgement : String :=
  calls.foldl (fun
    | _, .acknowledgeAblExit token => token
    | _, .clearAblExitAcknowledgement => ""
    | token, _ => token) ""

def Call.devices : Call → Option Devices
  | .captureAblBaseline d => some d
  | .currentAblSamples d => some d
  | .ablExitWarning d => some d
  | _ => none

def hashed : Set Bytes :=
  { bytes | ∃ call ∈ calls, ∃ d ∈ Call.devices call, ∃ name, d.contents name = some bytes }

structure Sound (lzma : Option Lzma) (sha256 : Bytes → Bytes) (contents : Set Bytes) (calls : List Call) (g : Guard) :
    Prop where
  cache : ∀ sample ∈ g.baselineCache, Valid lzma sha256 contents sample
  baseline : g.initialized = true → lzma.isSome ∧
    ∃ before, captured calls = some before ∧ g.session = ⟨true, current lzma sha256 before⟩
  fresh : g.initialized = false → g.session = {} ∧ (lzma.isSome → captured calls = none)
  acknowledged : g.acknowledged = lastAcknowledgement calls

theorem captured_append (call : Call) :
    captured (calls ++ [call]) = (captured calls).or (captured [call]) := findSome?_append

variable {calls : List Call}

section

variable {lzma : Option Lzma} {sha256 : Bytes → Bytes} (hlength : ∀ bytes, (sha256 bytes).length = 32)
  {contents : Set Bytes} (hinj : InjOn sha256 contents)

theorem Sound.start : Sound lzma sha256 contents [] {} :=
  ⟨nofun, nofun, fun _ => ⟨rfl, fun _ => rfl⟩, rfl⟩

variable {g : Guard}

theorem Sound.next (h : Sound lzma sha256 contents calls g) {call : Call} (hcaptured : captured [call] = none)
    {samples : List AblSample} (hsamples : ∀ sample ∈ samples, Valid lzma sha256 contents sample) {token : String}
    (htoken : lastAcknowledgement (calls ++ [call]) = token) :
    Sound lzma sha256 contents (calls ++ [call]) { g with baselineCache := samples, acknowledged := token } := by
  have hsame : captured (calls ++ [call]) = captured calls := by
    rw [captured_append, hcaptured, or_none]
  exact ⟨hsamples, hsame ▸ h.baseline, hsame ▸ h.fresh, htoken.symm⟩

theorem Sound.capture (h : Sound lzma sha256 contents calls g) {d : Devices}
    (hd : ∀ name bytes, d.contents name = some bytes → bytes ∈ contents) :
    Sound lzma sha256 contents (calls ++ [.captureAblBaseline d]) (captureAblBaseline lzma sha256 g d).1 := by
  have hack : lastAcknowledgement (calls ++ [.captureAblBaseline d]) = lastAcknowledgement calls := by
    rw [lastAcknowledgement, foldl_append]
    rfl
  rw [captureAblBaseline]
  split_ifs with hskip
  · refine ⟨h.cache, ?_, ?_, h.acknowledged.trans hack.symm⟩
    · intro hinit
      obtain ⟨hsome, before, hbefore, hsession⟩ := h.baseline hinit
      exact ⟨hsome, before, by rw [captured_append, hbefore, some_or], hsession⟩
    · intro hinit
      refine ⟨(h.fresh hinit).1, fun hsome => ?_⟩
      rcases hskip with hnone | hinit'
      · simp_all
      · exact absurd (hinit'.symm.trans hinit) (by simp)
  · obtain ⟨hsome, hinit⟩ := not_or.mp hskip
    obtain ⟨hsession, hnone⟩ := h.fresh (by simpa using hinit)
    have hsome : lzma.isSome := by simpa [isSome_iff_ne_none] using hsome
    refine ⟨valid_current hd, fun _ => ⟨hsome, d, ?_, ?_⟩, nofun, h.acknowledged.trans hack.symm⟩
    · rw [captured_append, hnone hsome, none_or]
      rfl
    · rw [hsession]
      rfl

include hlength hinj in
theorem sound_step (h : Sound lzma sha256 contents calls g) (call : Call)
    (hcall : ∀ d ∈ Call.devices call, ∀ name bytes, d.contents name = some bytes → bytes ∈ contents) :
    Sound lzma sha256 contents (calls ++ [call]) (step lzma sha256 g call) := by
  have hfold : ∀ call, lastAcknowledgement (calls ++ [call]) = _ := fun call => foldl_append
  cases call with
  | captureAblBaseline d => exact h.capture (hcall d rfl)
  | currentAblSamples d =>
    rw [step, currentAblSamples, discoverSamples_cache hlength hinj (hcall d rfl) h.cache]
    split_ifs
    · exact h.next rfl h.cache ((hfold _).trans h.acknowledged.symm)
    · exact h.next rfl (valid_current (hcall d rfl)) ((hfold _).trans h.acknowledged.symm)
  | ablExitWarning d =>
    rw [step, ablExitWarning, discoverSamples_cache hlength hinj (hcall d rfl) h.cache]
    split_ifs
    · exact h.next rfl h.cache ((hfold _).trans h.acknowledged.symm)
    · exact h.next rfl (valid_current (hcall d rfl)) ((hfold _).trans h.acknowledged.symm)
  | acknowledgeAblExit token | clearAblExitAcknowledgement => exact h.next rfl h.cache (hfold _)

include hlength hinj in
theorem sound_run (hcalls : hashed calls ⊆ contents) : Sound lzma sha256 contents calls (run lzma sha256 calls) := by
  induction calls using reverseRecOn with
  | nil => exact Sound.start
  | append_singleton calls call ih =>
    rw [run, foldl_append]
    have hbefore := ih fun bytes ⟨c, hc, hbytes⟩ => hcalls ⟨c, mem_append_left _ hc, hbytes⟩
    refine sound_step hlength hinj hbefore call ?_
    intro d hd name bytes hbytes
    exact hcalls ⟨call, mem_append_right _ (mem_singleton.mpr rfl), d, hd, name, hbytes⟩

end

theorem captured_contents {before : Devices} (h : captured calls = some before) :
    ∀ name bytes, before.contents name = some bytes → bytes ∈ hashed calls := by
  obtain ⟨call, hcall, hsome⟩ := exists_of_findSome?_eq_some h
  cases call with
  | captureAblBaseline d =>
    cases hsome
    exact fun name bytes hbytes => ⟨_, hcall, before, rfl, name, hbytes⟩
  | _ => cases hsome

/-- Once a baseline is captured, leaving without a warning means that every slot that was a loader is one still, or that
this very warning was the last to be acknowledged. -/
theorem ablExitWarning_silent {lzma : Option Lzma} {sha256 : Bytes → Bytes}
    (hlength : ∀ bytes, (sha256 bytes).length = 32) {calls : List Call} {now : Devices}
    (hinj : InjOn sha256 (hashed (calls ++ [.ablExitWarning now]))) (hcaptured : (run lzma sha256 calls).initialized = true) :
    ∃ before, captured calls = some before ∧ ((ablExitWarning lzma sha256 (run lzma sha256 calls) now).2.text = "" ↔
        Kept lzma before now ∨ lastAcknowledgement calls = tokens (changes lzma sha256 before now) ∧
            ∀ d d', tokens (changes lzma sha256 d d') = lastAcknowledgement calls →
              changes lzma sha256 d d' = changes lzma sha256 before now) ∧
      ∀ sample ∈ (run lzma sha256 calls).baselineCache, Valid lzma sha256 (hashed calls) sample ∧
          ∀ bytes ∈ hashed calls, hash sha256 bytes = sample.digest → sample.status = inspectAbl lzma bytes := by
  have hsub : hashed calls ⊆ hashed (calls ++ [.ablExitWarning now]) :=
    fun bytes ⟨c, hc, hbytes⟩ => ⟨c, mem_append_left _ hc, hbytes⟩
  have hnow : ∀ name bytes, now.contents name = some bytes → bytes ∈ hashed (calls ++ [.ablExitWarning now]) :=
    fun name bytes hbytes => ⟨_, mem_append_right _ (mem_singleton.mpr rfl), now, rfl, name, hbytes⟩
  have h : Sound lzma sha256 _ calls (run lzma sha256 calls) := sound_run hlength hinj hsub
  obtain ⟨hsome, before, hbefore, hsession⟩ := h.baseline hcaptured
  refine ⟨before, hbefore, ?_, ?_⟩
  · have hskip : ¬ (lzma.isNone = true ∨ ¬ (run lzma sha256 calls).initialized = true) := by
      simp [hcaptured, isSome_iff_ne_none.mp hsome]
    have hold := captured_contents hbefore
    rw [ablExitWarning, if_neg hskip, discoverSamples_cache hlength hinj hnow h.cache, hsession, h.acknowledged]
    have hkept : changes lzma sha256 before now = [] ↔ Kept lzma before now :=
      changes_eq_nil hlength hinj (fun name bytes hbytes => hsub (hold name bytes hbytes)) hnow
    have hinjective : ∀ d d', tokens (changes lzma sha256 d d') = tokens (changes lzma sha256 before now) →
        changes lzma sha256 d d' = changes lzma sha256 before now :=
      fun d d' h => tokens_inj (plain_changes d d') (plain_changes before now) h
    dsimp only
    rw [check_token]
    split_ifs with hack
    · refine iff_of_true rfl (.inr ⟨hack.2.symm, ?_⟩)
      rw [← hack.2]
      exact hinjective
    · rw [check_text]
      change changes lzma sha256 before now = [] ↔ _
      rw [hkept]
      refine ⟨.inl, ?_⟩
      rintro (hkeep | ⟨htoken, -⟩)
      · exact hkeep
      · refine hkept.mp ?_
        by_contra hne
        refine hack ⟨fun hempty => hne ?_, htoken.symm⟩
        exact tokens_inj (plain_changes before now) nofun hempty
  · intro sample hsample
    have hinj' : InjOn sha256 (hashed calls) := hinj.mono hsub
    have hvalid := (sound_run hlength hinj' subset_rfl).cache sample hsample
    exact ⟨hvalid, fun bytes hbytes hdigest => hvalid.status_eq hlength hinj' hbytes hdigest.symm⟩

def loaderDevices : Devices :=
  ⟨fun name => if name = "abl_a" then some ⟨1, .holding Safety.loaderImage⟩ else none, fun _ => none⟩

def noDevices : Devices := ⟨fun _ => none, fun _ => none⟩

def sampleCalls : List Call :=
  [.captureAblBaseline loaderDevices, .ablExitWarning noDevices, .acknowledgeAblExit "abl_a:unreadable:unknown;"]

def sampleHash (bytes : Bytes) : Bytes := replicate 32 (byte bytes 0).toUInt8

theorem contents_loaderImage : (Medium.holding Safety.loaderImage).contents = some Safety.loaderImage := by
  have hextent : readExtent Safety.loaderImage = some 252 := by decide +kernel
  have htake : Safety.loaderImage.take 252 = Safety.loaderImage := by decide +kernel
  rw [contents_holding, if_neg (by decide +kernel), hextent, bind_some, if_neg (by decide), htake]

theorem medium_loaderDevices (name : String) :
    loaderDevices.medium name = if name = "abl_a" then some (.holding Safety.loaderImage) else none := by
  by_cases hname : name = "abl_a"
  · simp [Devices.medium, loaderDevices, consider, hname]
  · simp [Devices.medium, loaderDevices, consider, hname]

theorem ablExitWarning_silent_sample :
    (ablExitWarning (some Safety.storedLzma) sampleHash (run (some Safety.storedLzma) sampleHash sampleCalls)
      noDevices).2.text = "" := by
  have hloader : inspectAbl (some Safety.storedLzma) Safety.loaderImage = .efispLoader := by decide +kernel
  have hcurrent : current (some Safety.storedLzma) sampleHash loaderDevices =
      [⟨"abl_a", hash sampleHash Safety.loaderImage, .efispLoader⟩] := by
    simp [current, discoverSamples, names, medium_loaderDevices, readAbl_nil, contents_loaderImage, hloader]
  have hchanges : changes (some Safety.storedLzma) sampleHash loaderDevices noDevices =
      [⟨"abl_a", "unreadable", false⟩] := by
    rw [changes, hcurrent]
    rfl
  have hinj : InjOn sampleHash (hashed (sampleCalls ++ [.ablExitWarning noDevices])) := by
    have honly : hashed (sampleCalls ++ [.ablExitWarning noDevices]) ⊆ {Safety.loaderImage} := by
      rintro bytes ⟨call, hcall, d, hd, name, hbytes⟩
      obtain ⟨m, hm, hm'⟩ := bind_eq_some_iff.mp hbytes
      obtain rfl | rfl | rfl | rfl := by simpa [sampleCalls] using hcall
      · cases hd
        rw [medium_loaderDevices] at hm
        split_ifs at hm
        cases hm
        exact (some.inj (contents_loaderImage.symm.trans hm')).symm
      · cases hd
        cases hm
      · cases hd
      · cases hd
        cases hm
    exact (injOn_singleton _ _).mono honly
  obtain ⟨before, hbefore, hsilent, -⟩ := ablExitWarning_silent (fun _ => length_replicate) hinj
    (show (run (some Safety.storedLzma) sampleHash sampleCalls).initialized = true from rfl)
  cases hbefore
  have htoken : lastAcknowledgement sampleCalls =
      tokens (changes (some Safety.storedLzma) sampleHash loaderDevices noDevices) := by
    rw [hchanges]
    decide
  exact hsilent.mpr (.inr ⟨htoken, fun d d' h => tokens_inj (plain_changes d d') (plain_changes _ _) (h.trans htoken)⟩)

end AeraRecovery.Abl.ExitWarning
