import AeraRecovery.LockSecurity.Store
import AeraRecovery.Lib.Steps

namespace AeraRecovery.LockSecurity

open Lib Bytes Text Hex List

section

theorem unhexKey_hex (k : Key) : unhexKey (hex k) = some k := by
  unfold unhexKey
  rw [unhex_hex]
  exact dif_pos k.2

theorem hex_ne_nil (k : Key) : hex k.1 ≠ [] := by
  rw [← length_pos_iff, length_hex, k.2]
  decide

theorem parse_format (c : Credential) : parse (format c) = some c := by
  obtain ⟨kind, fingerprint, salt, hash⟩ := c
  have hsalt (rest : Bytes) : extractWord (hex salt ++ 32 :: rest) = some (hex salt, 32 :: rest) :=
    extractWord_append (hex_ne_nil salt) (fun c hc => isSpace_of_mem_hex hc) (delimited_blank rest)
  have hhash := extractWord_line (hex_ne_nil hash) fun c hc => isSpace_of_mem_hex hc
  have hversion (rest : Bytes) : extractWord (ascii "AERA_LOCK_1" ++ 32 :: rest) = some (ascii "AERA_LOCK_1", 32 :: rest) :=
    extractWord_append (by decide) (by decide +kernel) (delimited_blank rest)
  have hkind (rest : Bytes) : extractWord (kindText kind ++ 32 :: rest) = some (kindText kind, 32 :: rest) := by
    cases kind <;> exact extractWord_append (by decide) (by decide +kernel) (delimited_blank rest)
  have hint (rest : Bytes) : extractInt ((if fingerprint then ascii "1" else ascii "0") ++ 32 :: rest) =
      some (if fingerprint then 1 else 0, 32 :: rest) := by
    cases fingerprint <;> rfl
  have hunkind : unkind (kindText kind) = some kind := by cases kind <;> rfl
  have hunflag : unflag (if fingerprint then 1 else 0) = some fingerprint := by cases fingerprint <;> rfl
  have hextra : extractWord [10] = none := rfl
  have hblank (rest : Bytes) : extractInt (32 :: rest) = extractInt rest := rfl
  simp only [parse, format, hversion, hkind, hint, hsalt, hhash, hunkind, hunflag, hextra, hblank, unhexKey_hex,
    extractWord_blank, Option.bind_eq_bind, Option.bind_some, Option.isSome_none, Bool.false_eq_true, ne_eq,
    not_true_eq_false, or_self, if_false, Option.pure_def]

theorem length_format (c : Credential) : 0 < (format c).length ∧ (format c).length ≤ 1024 := by
  obtain ⟨kind, fingerprint, salt, hash⟩ := c
  have hsalt := length_hex salt.1
  have hhash := length_hex hash.1
  rw [salt.2] at hsalt
  rw [hash.2] at hhash
  cases kind <;> cases fingerprint <;>
    simp [format, kindText, ascii, hsalt, hhash]

end

/-- The record of the directory when every call of `Read` succeeds. -/
def Folder.stored : Folder → Option Credential
  | .present true (.file true bytes) => if 0 < bytes.length ∧ bytes.length ≤ 1024 then parse bytes else none
  | _ => none

section

variable {f : ReadFaults} {d : Folder} {c : Credential}

theorem parse_of_readFile {safe : Bool} {bytes : Bytes} (h : readFile f safe bytes = .valid c) :
    safe = true ∧ 0 < bytes.length ∧ bytes.length ≤ 1024 ∧ parse bytes = some c := by
  unfold readFile at h
  split_ifs at h with hstat hread
  cases hparse : parse bytes with
  | none =>
    rw [hparse] at h
    cases h
  | some c' =>
    rw [hparse] at h
    cases h
    simp only [Bool.or_eq_true, Bool.not_eq_true', decide_eq_true_eq, not_or, Bool.not_eq_false] at hstat
    exact ⟨hstat.1.1.2, by omega, by omega, rfl⟩

theorem stored_of_read (h : read f d = .valid c) : d.stored = some c := by
  cases d with
  | missing | unusable =>
    dsimp only [read] at h
    split_ifs at h
  | present safe e =>
    cases e with
    | absent | symlink | directory | special =>
      dsimp only [read] at h
      split_ifs at h
    | file fileSafe bytes =>
      dsimp only [read] at h
      split_ifs at h with hopen hstat
      obtain ⟨rfl, hpos, hle, hparse⟩ := parse_of_readFile h
      have hsafe : safe = true := by simpa using (by simpa using hstat : f.statDir = false ∧ safe = true).2
      rw [hsafe, Folder.stored, if_pos ⟨hpos, hle⟩, hparse]

theorem readFile_ne_none (f : ReadFaults) (safe : Bool) (bytes : Bytes) : readFile f safe bytes ≠ .none := by
  unfold readFile
  split_ifs
  · exact nofun
  · exact nofun
  · cases parse bytes <;> exact nofun

theorem entry_of_read (h : read f d = .none) : d.entry = .absent := by
  cases d with
  | missing | unusable => rfl
  | present safe e =>
    cases e with
    | absent => rfl
    | symlink | directory | special =>
      dsimp only [read] at h
      split_ifs at h
    | file fileSafe bytes =>
      dsimp only [read] at h
      split_ifs at h
      exact absurd h (readFile_ne_none f fileSafe bytes)

theorem stored_format (c : Credential) : (Folder.present true (.file true (format c))).stored = some c := by
  rw [Folder.stored, if_pos (length_format c), parse_format]

theorem read_format (c : Credential) : read {} (.present true (.file true (format c))) = .valid c := by
  have hlength := length_format c
  simp only [read, readFile, parse_format, Bool.false_or, Bool.not_true, Bool.false_eq_true, if_false,
    Bool.or_eq_true, decide_eq_true_eq]
  rw [if_neg (by omega)]

theorem stored_mkdir (d : Folder) : d.mkdir.stored = d.stored ∧ d.mkdir.entry = d.entry := by
  cases d <;> exact ⟨rfl, rfl⟩

end

section

variable {scrypt : Bytes → Key → Key} {s : Store} {now later : Nat} {r : Record} {value : Bytes}

theorem folder_check : (s.check scrypt now later r value).2.folder = s.folder := by
  unfold Store.check
  split_ifs
  · rfl
  cases r with
  | none | damaged => rfl
  | valid c =>
    dsimp only
    split_ifs <;> rfl

theorem check_ok_iff : (s.check scrypt now later r value).1 = .ok () ↔
    s.retrySeconds now = 0 ∧ ∃ c, r = .valid c ∧ c.matches scrypt value = true := by
  unfold Store.check
  split_ifs with hretry
  · exact iff_of_false nofun fun h => hretry h.1
  rw [not_not] at hretry
  cases r with
  | none | damaged => exact iff_of_false nofun fun ⟨_, c, h, _⟩ => by cases h
  | valid c =>
    dsimp only
    split_ifs with hc
    · exact iff_of_true rfl ⟨hretry, c, rfl, hc⟩
    · refine iff_of_false nofun fun ⟨_, c', h, hc'⟩ => ?_
      cases h
      exact hc hc'

/-- `Write` leaves the record as it was, or replaces it and reports what the last `fsync` says. -/
theorem write_cases (s : Store) (f : WriteFaults) (c : Credential) :
    ((∃ e, (s.write f c).1 = .error e) ∧ (s.write f c).2.folder.entry = s.folder.entry ∧
      (s.write f c).2.folder.stored = s.folder.stored) ∨ (((s.write f c).1 = .ok () ↔ f.syncDir = false) ∧
      (s.write f c).2.folder = .present true (.file true (format c))) := by
  obtain ⟨hstored, hentry⟩ := stored_mkdir s.folder
  unfold Store.write
  by_cases hmkdir : f.mkdir = true
  · rw [if_pos hmkdir]
    exact .inl ⟨⟨_, rfl⟩, rfl, rfl⟩
  rw [if_neg hmkdir]
  cases hd : s.folder.mkdir with
  | missing | unusable =>
    rw [hd] at hentry hstored
    exact .inl ⟨⟨_, rfl⟩, hentry, hstored⟩
  | present safe e =>
    rw [hd] at hentry hstored
    dsimp only
    split_ifs with hopen hstat hrandom hsave hsync
    · exact .inl ⟨⟨_, rfl⟩, hentry, hstored⟩
    · exact .inl ⟨⟨_, rfl⟩, hentry, hstored⟩
    · exact .inl ⟨⟨_, rfl⟩, hentry, hstored⟩
    · exact .inl ⟨⟨_, rfl⟩, hentry, hstored⟩
    all_goals
      obtain rfl : safe = true := by simpa using (by simpa using hstat : f.statDir = false ∧ safe = true).2
    · exact .inr ⟨iff_of_false nofun (by rw [hsync]; decide), rfl⟩
    · exact .inr ⟨iff_of_true rfl (by simpa using hsync), rfl⟩

end

inductive Call where
  | set (noSalt : Bool) (salt : Key) (current : Bytes) (kind : Option Kind) (value confirmation : Bytes)
  | remove (current : Bytes)
  | setFingerprint (current : Bytes) (enabled : Bool)
  | verify (value : Bytes)

/-- A call with the times at which it looks at the clock and the operations in it that fail. -/
structure Label where
  call : Call
  now : Nat := 0
  later : Nat := 0
  reads : ReadFaults := {}
  writes : WriteFaults := {}

def Store.apply (scrypt : Bytes → Key → Key) (s : Store) (l : Label) : Result × Store :=
  match l.call with
  | .set noSalt salt current kind value confirmation =>
    s.set scrypt l.now l.later l.reads l.writes noSalt salt current kind value confirmation
  | .remove current => s.remove scrypt l.now l.later l.reads l.writes current
  | .setFingerprint current enabled => s.setFingerprint scrypt l.now l.later l.reads l.writes current enabled
  | .verify value => s.verify scrypt l.now l.later l.reads value

inductive Effect (scrypt : Bytes → Key → Key) (d : Folder) (l : Label) (r : Result) (d' : Folder) : Prop
  | kept (hentry : d'.entry = d.entry) (hstored : d'.stored = d.stored)
      (hr : r = .ok () → ∃ value, l.call = .verify value)
  | set {noSalt : Bool} {salt : Key} {current value confirmation : Bytes} {kind : Kind}
      (hcall : l.call = .set noSalt salt current (some kind) value confirmation)
      (hauth : d.entry = .absent ∨ ∃ c, d.stored = some c ∧ c.matches scrypt current = true)
      (hvalue : validSecret kind value = true)
      (hd : d' = .present true (.file true (format ⟨kind, false, salt, scrypt value salt⟩)))
      (hr : r = .ok () ↔ l.writes.syncDir = false)
  | removed {current : Bytes} {c : Credential} (hcall : l.call = .remove current) (hc : d.stored = some c)
      (hauth : c.matches scrypt current = true) (hd : d'.entry = .absent) (hstored : d'.stored = none)
      (hr : r = .ok () ↔ l.writes.syncDir = false)
  | flagged {current : Bytes} {enabled : Bool} {c : Credential} (hcall : l.call = .setFingerprint current enabled)
      (hc : d.stored = some c) (hauth : c.matches scrypt current = true)
      (hd : d' = .present true (.file true (format { c with fingerprint := enabled })))
      (hr : r = .ok () ↔ l.writes.syncDir = false)

section

variable {scrypt : Bytes → Key → Key}

variable (scrypt) in
theorem check_cases (s : Store) (l : Label) (current : Bytes) :
    (∃ e t, s.check scrypt l.now l.later (read l.reads s.folder) current = (.error e, t) ∧ t.folder = s.folder) ∨
    ∃ c t, s.check scrypt l.now l.later (read l.reads s.folder) current = (.ok (), t) ∧ t.folder = s.folder ∧
      read l.reads s.folder = .valid c ∧ s.folder.stored = some c ∧ c.matches scrypt current = true := by
  have hfolder : (s.check scrypt l.now l.later (read l.reads s.folder) current).2.folder = s.folder := folder_check
  have hok (hres : (s.check scrypt l.now l.later (read l.reads s.folder) current).1 = .ok ()) :=
    (check_ok_iff.mp hres).2
  cases hchecked : s.check scrypt l.now l.later (read l.reads s.folder) current with
  | mk res t =>
    rw [hchecked] at hfolder hok
    cases res with
    | error e => exact .inl ⟨e, t, rfl, hfolder⟩
    | ok =>
      obtain ⟨c, hc, hmatch⟩ := hok rfl
      exact .inr ⟨c, t, rfl, hfolder, hc, stored_of_read hc, hmatch⟩

theorem effect_error (s t : Store) (l : Label) {e : String} (h : t.folder = s.folder) :
    Effect scrypt s.folder l (.error e) t.folder :=
  .kept (by rw [h]) (by rw [h]) nofun

variable {current : Bytes}

theorem effect_remove (s : Store) (l : Label) (hl : l.call = .remove current) :
    let r := s.remove scrypt l.now l.later l.reads l.writes current
    Effect scrypt s.folder l r.1 r.2.folder := by
  dsimp only
  rw [Store.remove]
  rcases check_cases scrypt s l current with ⟨e, t, ht, hfolder⟩ | ⟨c, t, ht, hfolder, -, hstored, hmatch⟩
  · rw [ht]
    exact effect_error s t l hfolder
  rw [ht]
  dsimp only
  cases hd : t.folder with
  | missing | unusable => exact effect_error s t l hfolder
  | present safe e =>
    dsimp only
    split_ifs with hfail hsync
    · exact effect_error s t l hfolder
    · exact .removed hl hstored hmatch rfl (by cases safe <;> rfl) (iff_of_false nofun (by rw [hsync]; decide))
    · exact .removed hl hstored hmatch rfl (by cases safe <;> rfl) (iff_of_true rfl (by simpa using hsync))

theorem effect_setFingerprint (s : Store) (l : Label) {enabled : Bool}
    (hl : l.call = .setFingerprint current enabled) :
    let r := s.setFingerprint scrypt l.now l.later l.reads l.writes current enabled
    Effect scrypt s.folder l r.1 r.2.folder := by
  dsimp only
  rw [Store.setFingerprint]
  rcases check_cases scrypt s l current with ⟨e, t, ht, hfolder⟩ | ⟨c, t, ht, hfolder, hc, hstored, hmatch⟩
  · rw [ht]
    exact effect_error s t l hfolder
  rw [ht, hc]
  rcases write_cases t l.writes { c with fingerprint := enabled } with ⟨⟨e, he⟩, hentry, hsame⟩ | ⟨hr, hd⟩
  · rw [he]
    exact .kept (hentry.trans (by rw [hfolder])) (hsame.trans (by rw [hfolder])) nofun
  · exact .flagged hl hstored hmatch hd hr

theorem effect_replace {s t : Store} {l : Label} {noSalt : Bool} {salt : Key} {value confirmation : Bytes}
    {kind : Option Kind} (hl : l.call = .set noSalt salt current kind value confirmation) (ht : t.folder = s.folder)
    (hauth : s.folder.entry = .absent ∨ ∃ c, s.folder.stored = some c ∧ c.matches scrypt current = true) :
    Effect scrypt s.folder l (t.replace scrypt l.writes noSalt salt kind value confirmation).1
      (t.replace scrypt l.writes noSalt salt kind value confirmation).2.folder := by
  unfold Store.replace
  by_cases hconfirm : value ≠ confirmation
  · rw [if_pos hconfirm]
    exact effect_error s t l ht
  rw [if_neg hconfirm]
  cases kind with
  | none => exact effect_error s t l ht
  | some kind =>
    dsimp only
    split_ifs with hvalid hpin hsalt
    · exact effect_error s t l ht
    · exact effect_error s t l ht
    · exact effect_error s t l ht
    · rcases write_cases t l.writes ⟨kind, false, salt, scrypt value salt⟩ with ⟨⟨e, he⟩, hentry, hsame⟩ | ⟨hr, hd⟩
      · rw [he]
        exact .kept (hentry.trans (by rw [ht])) (hsame.trans (by rw [ht])) nofun
      · exact .set hl hauth (by simpa using hvalid) hd hr

theorem effect_set (s : Store) (l : Label) {noSalt : Bool} {salt : Key} {value confirmation : Bytes}
    {kind : Option Kind} (hl : l.call = .set noSalt salt current kind value confirmation) :
    let r := s.set scrypt l.now l.later l.reads l.writes noSalt salt current kind value confirmation
    Effect scrypt s.folder l r.1 r.2.folder := by
  dsimp only
  rw [Store.set]
  by_cases hnone : read l.reads s.folder = .none
  · rw [if_pos hnone]
    exact effect_replace hl rfl (.inl (entry_of_read hnone))
  rw [if_neg hnone]
  rcases check_cases scrypt s l current with ⟨e, t, ht, hfolder⟩ | ⟨c, t, ht, hfolder, -, hstored, hmatch⟩
  · rw [ht]
    exact effect_error s t l hfolder
  · rw [ht]
    exact effect_replace hl hfolder (.inr ⟨c, hstored, hmatch⟩)

variable (scrypt) in
theorem effect_apply (s : Store) (l : Label) :
    Effect scrypt s.folder l (s.apply scrypt l).1 (s.apply scrypt l).2.folder := by
  rw [Store.apply]
  cases hl : l.call with
  | set noSalt salt current kind value confirmation => exact effect_set s l hl
  | remove current => exact effect_remove s l hl
  | setFingerprint current enabled => exact effect_setFingerprint s l hl
  | verify value =>
    dsimp only
    rw [Store.verify, folder_check]
    exact .kept rfl rfl fun _ => ⟨value, hl⟩

end

/-- A store with the value of the last `Set` that returned success. -/
structure Trace where
  store : Store
  last : Option Bytes := none

namespace Trace

def record (l : Label) (r : Result) (last : Option Bytes) : Option Bytes :=
  match l.call, r with
  | .set _ _ _ _ value _, .ok _ => some value
  | _, _ => last

def step (scrypt : Bytes → Key → Key) (t : Trace) (l : Label) : Option Trace :=
  let (r, store) := t.store.apply scrypt l
  some ⟨store, record l r t.last⟩

end Trace

def Call.secrets : Call → List Bytes
  | .set _ _ current _ value _ => [current, value]
  | .remove current => [current]
  | .setFingerprint current _ => [current]
  | .verify value => [value]

def Call.current : Call → Option Bytes
  | .set _ _ current _ _ _ | .remove current | .setFingerprint current _ => some current
  | .verify _ => none

/-- A call with secrets of `secrets` whose `fsync` of the directory does not fail. -/
structure Label.Synced (secrets : Set Bytes) (l : Label) : Prop where
  syncDir : l.writes.syncDir = false
  secrets_mem : ∀ v ∈ l.call.secrets, v ∈ secrets

def Distinguishes (scrypt : Bytes → Key → Key) (secrets : Set Bytes) : Prop :=
  ∀ v ∈ secrets, ∀ w ∈ secrets, ∀ salt, scrypt v salt = scrypt w salt → v = w

/-- The secret is the value of the last `Set` that returned success or opens the initial record. -/
def Trace.Expected (scrypt : Bytes → Key → Key) (initial : Folder) (t : Trace) (v : Bytes) : Prop :=
  match t.last with
  | some w => v = w
  | none => ∃ c, initial.stored = some c ∧ c.matches scrypt v = true

structure Authority (scrypt : Bytes → Key → Key) (initial : Folder) (t : Trace) (l : Label) : Prop where
  changed : (t.store.apply scrypt l).2.folder.entry ≠ t.store.folder.entry →
    (∃ c v, t.store.folder.stored = some c ∧ l.call.current = some v ∧ c.matches scrypt v = true) ∨
      t.store.folder.entry = .absent ∧ ∃ noSalt salt current kind value confirmation,
        l.call = .set noSalt salt current kind value confirmation
  kept : t.store.folder.stored = none → t.store.folder.entry ≠ .absent →
    (t.store.apply scrypt l).2.folder.entry = t.store.folder.entry
  verify : ∀ v, l.call = .verify v → ((t.store.apply scrypt l).1 = .ok () ↔
    (∃ c, read l.reads t.store.folder = .valid c) ∧ t.store.retrySeconds l.now = 0 ∧ t.Expected scrypt initial v)
  failure : (t.store.apply scrypt l).1 ≠ .ok () → (t.store.apply scrypt l).2.folder.stored = t.store.folder.stored

/-- The stored record is the initial one up to the flag, or the one of the last `Set`. -/
def Trace.Inv (scrypt : Bytes → Key → Key) (secrets : Set Bytes) (initial : Folder) (t : Trace) : Prop :=
  ∀ c, t.store.folder.stored = some c →
    match t.last with
    | some w => w ∈ secrets ∧ c.matches scrypt w = true
    | none => ∃ c₀, initial.stored = some c₀ ∧ c.kind = c₀.kind ∧ c.salt = c₀.salt ∧ c.hash = c₀.hash

section

variable {scrypt : Bytes → Key → Key} {secrets : Set Bytes} {initial : Folder} {t u : Trace} {l : Label}

theorem matches_of_eq {c c₀ : Credential} (hkind : c.kind = c₀.kind) (hsalt : c.salt = c₀.salt) (hhash : c.hash = c₀.hash)
    (v : Bytes) : c.matches scrypt v = c₀.matches scrypt v := by
  rw [Credential.matches, Credential.matches, hkind, hsalt, hhash]

theorem record_of_ne {r : Result} (h : r = .ok () → ∀ noSalt salt current kind value confirmation,
    l.call ≠ .set noSalt salt current kind value confirmation) (last : Option Bytes) :
    Trace.record l r last = last := by
  cases r with
  | error e => cases hl : l.call <;> simp only [Trace.record, hl]
  | ok =>
    cases hl : l.call with
    | set => exact absurd hl (h rfl _ _ _ _ _ _)
    | remove | setFingerprint | verify => simp only [Trace.record, hl]

theorem Trace.Inv.step (h : t.Inv scrypt secrets initial) (hl : l.Synced secrets)
    (hstep : t.step scrypt l = some u) : u.Inv scrypt secrets initial := by
  obtain rfl : (⟨(t.store.apply scrypt l).2, Trace.record l (t.store.apply scrypt l).1 t.last⟩ : Trace) = u :=
    Option.some.inj hstep
  have heffect := effect_apply scrypt t.store l
  intro c hc
  cases heffect with
  | kept hentry hstored hr =>
    rw [record_of_ne fun hok => by obtain ⟨v, hv⟩ := hr hok; rw [hv]; exact nofun]
    rw [hstored] at hc
    exact h c hc
  | set hcall hauth hvalue hd hr =>
    rename_i noSalt salt current value confirmation kind
    rw [hd, stored_format] at hc
    cases hc
    have hrecord : Trace.record l (t.store.apply scrypt l).1 t.last = some value := by
      rw [hr.mpr hl.syncDir]
      simp only [Trace.record, hcall]
    rw [hrecord]
    refine ⟨hl.secrets_mem value (by rw [hcall]; simp [Call.secrets]), ?_⟩
    simp only [Credential.matches, hvalue, decide_true, Bool.and_self]
  | removed hcall hc' hauth hd hstored hr =>
    rw [hstored] at hc
    cases hc
  | flagged hcall hc' hauth hd hr =>
    rename_i current enabled c'
    rw [hd, stored_format] at hc
    cases hc
    rw [record_of_ne fun _ => by rw [hcall]; exact nofun]
    exact h c' hc'

/-- While the record is valid, the expected secrets are those that open it. -/
theorem Trace.Inv.expected_iff (h : t.Inv scrypt secrets initial) (hscrypt : Distinguishes scrypt secrets)
    {c : Credential} (hc : t.store.folder.stored = some c) {v : Bytes} (hv : v ∈ secrets) :
    t.Expected scrypt initial v ↔ c.matches scrypt v = true := by
  have hinv := h c hc
  unfold Trace.Expected
  cases hlast : t.last with
  | some w =>
    rw [hlast] at hinv
    obtain ⟨hw, hmatch⟩ := hinv
    constructor
    · rintro rfl
      exact hmatch
    · intro hv'
      simp only [Credential.matches, Bool.and_eq_true, decide_eq_true_eq] at hmatch hv'
      exact hscrypt v hv w hw c.salt (hv'.2.trans hmatch.2.symm)
  | none =>
    rw [hlast] at hinv
    obtain ⟨c₀, hc₀, hkind, hsalt, hhash⟩ := hinv
    rw [hc₀, matches_of_eq hkind hsalt hhash]
    constructor
    · rintro ⟨c', hc', hv'⟩
      rw [Option.some.inj hc']
      exact hv'
    · intro hv'
      exact ⟨c₀, rfl, hv'⟩

section

variable {d d' : Folder} {r : Result}

theorem Effect.changed (h : Effect scrypt d l r d') (hne : d'.entry ≠ d.entry) :
    (∃ c v, d.stored = some c ∧ l.call.current = some v ∧ c.matches scrypt v = true) ∨
      d.entry = .absent ∧ ∃ noSalt salt current kind value confirmation,
        l.call = .set noSalt salt current kind value confirmation := by
  cases h with
  | kept hentry hstored hr => exact absurd hentry hne
  | set hcall hauth hvalue hd hr =>
    rcases hauth with habsent | ⟨c, hc, hmatch⟩
    · exact .inr ⟨habsent, _, _, _, _, _, _, hcall⟩
    · exact .inl ⟨c, _, hc, by rw [hcall]; rfl, hmatch⟩
  | removed hcall hc hauth hd hstored hr | flagged hcall hc hauth hd hr =>
    exact .inl ⟨_, _, hc, by rw [hcall]; rfl, hauth⟩

theorem Effect.damaged (h : Effect scrypt d l r d') (hnone : d.stored = none) (hentry : d.entry ≠ .absent) :
    d'.entry = d.entry := by
  by_contra hne
  rcases h.changed hne with ⟨c, v, hc, -⟩ | ⟨habsent, -⟩
  · rw [hnone] at hc
    cases hc
  · exact hentry habsent

theorem Effect.failure (h : Effect scrypt d l r d') (hsync : l.writes.syncDir = false) (hr : r ≠ .ok ()) :
    d'.stored = d.stored := by
  cases h with
  | kept hentry hstored _ => exact hstored
  | set _ _ _ _ hr' | removed _ _ _ _ _ hr' | flagged _ _ _ _ hr' => exact absurd (hr'.mpr hsync) hr

end

theorem apply_verify {s : Store} {v : Bytes} (hl : l.call = .verify v) : (s.apply scrypt l).1 = .ok () ↔
    s.retrySeconds l.now = 0 ∧ ∃ c, read l.reads s.folder = .valid c ∧ c.matches scrypt v = true := by
  rw [Store.apply, hl]
  exact check_ok_iff

theorem Trace.Inv.authority (h : t.Inv scrypt secrets initial) (hscrypt : Distinguishes scrypt secrets)
    (hl : l.Synced secrets) : Authority scrypt initial t l := by
  have heffect := effect_apply scrypt t.store l
  refine ⟨heffect.changed, heffect.damaged, ?_, heffect.failure hl.syncDir⟩
  intro v hv
  have hmem : v ∈ secrets := hl.secrets_mem v (by rw [hv]; exact mem_singleton_self v)
  rw [apply_verify hv]
  constructor
  · rintro ⟨hretry, c, hc, hmatch⟩
    exact ⟨⟨c, hc⟩, hretry, (h.expected_iff hscrypt (stored_of_read hc) hmem).mpr hmatch⟩
  · rintro ⟨⟨c, hc⟩, hretry, hexpected⟩
    exact ⟨hretry, c, hc, (h.expected_iff hscrypt (stored_of_read hc) hmem).mp hexpected⟩

end

/-- The calls of a store keep to the authority of the stored secret in every run in which no `fsync` of the
directory fails. -/
theorem store_authority {scrypt : Bytes → Key → Key} {secrets : Set Bytes} {s : Store} {t : Trace} {l : Label}
    (hscrypt : Distinguishes scrypt secrets)
    (h : Steps.Reaches (Trace.step scrypt) (fun _ l => l.Synced secrets) ⟨s, none⟩ t) (hl : l.Synced secrets) :
    Authority scrypt s.folder t l := by
  have hinv : t.Inv scrypt secrets s.folder := by
    refine h.invariant (fun c hc => ⟨c, hc, rfl, rfl, rfl⟩) ?_
    intro t l u ht hl hstep
    exact ht.step hl hstep
  exact hinv.authority hscrypt hl

def plain (value : Bytes) (_ : Key) : Key :=
  ⟨(value ++ replicate 32 0).take 32, by rw [length_take, length_append, length_replicate]; omega⟩

def zeroKey : Key := ⟨replicate 32 0, rfl⟩

def samplePin : Bytes := ascii "673829"

def otherPin : Bytes := ascii "583921"

def setPin : Label := { call := .set false zeroKey [] (some .pin) samplePin samplePin }

def changePin : Label :=
  { call := .set false zeroKey samplePin (some .pin) otherPin otherPin, writes := { syncDir := true } }

theorem distinguishes_plain : Distinguishes plain {v | v ∈ [[], samplePin, otherPin]} := by
  have hall : ∀ v ∈ [[], samplePin, otherPin], ∀ w ∈ [[], samplePin, otherPin],
      (v ++ replicate 32 0).take 32 = (w ++ replicate 32 0).take 32 → v = w := by decide
  intro v hv w hw salt h
  exact hall v hv w hw (congrArg Subtype.val h)

def pinned : Trace :=
  ⟨{ folder := .present true (.file true (format ⟨.pin, false, zeroKey, plain samplePin zeroKey⟩)) }, some samplePin⟩

theorem step_setPin : Trace.step plain ⟨{ folder := .missing }, none⟩ setPin = some pinned := rfl

theorem store_authority_sample : Authority plain .missing pinned { call := .verify samplePin } := by
  refine store_authority (s := { folder := .missing }) distinguishes_plain
    (Steps.Reaches.refl.step (a := setPin) ⟨rfl, ?_⟩ step_setPin) ⟨rfl, ?_⟩
  · intro v hv
    simp only [setPin, Call.secrets, mem_cons, not_mem_nil, or_false] at hv
    rcases hv with rfl | rfl <;> simp
  · intro v hv
    rw [mem_singleton.mp hv]
    simp

theorem verify_format {c : Credential} {s : Store} (hs : s.folder = .present true (.file true (format c)))
    (hretry : s.retryAt = 0) (v : Bytes) : (s.apply plain { call := .verify v }).1 =
      if c.matches plain v then .ok () else .error "Incorrect PIN or password." := by
  simp only [Store.apply, Store.verify, Store.check, hs, read_format, Store.retrySeconds, hretry, Nat.not_lt_zero,
    if_false, ne_eq, not_true_eq_false]
  split_ifs <;> rfl

theorem apply_changePin : pinned.store.apply plain changePin = (.error "Could not synchronize the screen lock.",
    { folder := .present true (.file true (format ⟨.pin, false, zeroKey, plain otherPin zeroKey⟩)) }) := by
  have hmatch : Credential.matches plain ⟨.pin, false, zeroKey, plain samplePin zeroKey⟩ samplePin = true := by decide
  simp only [Store.apply, changePin, Store.set, pinned, read_format, Store.check, hmatch]
  rfl

/-- The second `Set` is reported as failed, but it is the new secret that opens the lock. -/
theorem store_authority_lost : Trace.step plain ⟨{ folder := .missing }, none⟩ setPin = some pinned ∧
    (pinned.store.apply plain changePin).1 = .error "Could not synchronize the screen lock." ∧
    ((pinned.store.apply plain changePin).2.apply plain { call := .verify samplePin }).1 =
      .error "Incorrect PIN or password." ∧
    ((pinned.store.apply plain changePin).2.apply plain { call := .verify otherPin }).1 = .ok () := by
  rw [apply_changePin]
  refine ⟨rfl, rfl, ?_, ?_⟩
  · rw [verify_format rfl rfl]
    exact if_neg (by decide)
  · rw [verify_format rfl rfl]
    exact if_pos (by decide)

end AeraRecovery.LockSecurity
