import AeraRecovery.Rpc.Dispatcher

namespace AeraRecovery.Rpc

open Lib Bytes List Function

/-- The loop of `FlushLines`, with a bound for its turns. `idxOf` is the length if there is no newline. -/
def flushLines : Nat → Bytes → List Bytes × Bytes
  | 0, pending => ([], pending)
  | turns + 1, pending =>
    let newline := pending.idxOf 10
    if newline = pending.length then ([], pending)
    else
      let (lines, tail) := flushLines turns (pending.drop (newline + 1))
      (pending.take (newline + 1) :: lines, tail)

def IsLine (text : Bytes) : Prop := ∃ l, text = l ++ [10] ∧ 10 ∉ l

theorem lines_induction {P : Bytes → Prop} (htail : ∀ t, 10 ∉ t → P t)
    (hline : ∀ l rest, 10 ∉ l → P rest → P (l ++ 10 :: rest)) (b : Bytes) : P b := by
  induction hn : b.length using Nat.strong_induction_on generalizing b with
  | h n ih =>
    by_cases hmem : 10 ∈ b
    · obtain ⟨l, rest, rfl, hl⟩ := eq_append_cons_of_mem hmem
      rw [length_append, length_cons] at hn
      exact hline l rest hl (ih _ (by omega) rest rfl)
    · exact htail b hmem

theorem splitLines_tail {t : Bytes} (h : 10 ∉ t) : splitLines t = ([], t) := by
  induction t with
  | nil => rfl
  | cons b t ih =>
    rw [mem_cons, not_or] at h
    rw [splitLines, ih h.2]
    exact if_neg (Ne.symm h.1)

theorem splitLines_line {l : Bytes} (h : 10 ∉ l) (rest : Bytes) :
    splitLines (l ++ 10 :: rest) = ((l ++ [10]) :: (splitLines rest).1, (splitLines rest).2) := by
  induction l with
  | nil => rfl
  | cons b l ih =>
    rw [mem_cons, not_or] at h
    rw [cons_append, splitLines, ih h.2]
    exact if_neg (Ne.symm h.1)

theorem flushLines_eq {turns : Nat} {b : Bytes} (h : b.length ≤ turns) : flushLines turns b = splitLines b := by
  induction b using lines_induction generalizing turns with
  | htail t ht =>
    rw [splitLines_tail ht]
    cases turns with
    | zero => rfl
    | succ turns => exact if_pos (idxOf_eq_length ht)
  | hline l rest hl ih =>
    have hindex : (l ++ 10 :: rest).idxOf 10 = l.length := by
      rw [idxOf_append_of_notMem hl, idxOf_cons_self, Nat.add_zero]
    rw [length_append, length_cons] at h
    cases turns with
    | zero => omega
    | succ turns =>
      have hne : l.length ≠ (l ++ 10 :: rest).length := by simp
      have htake : (l ++ 10 :: rest).take (l.length + 1) = l ++ [10] := take_length_add_append 1
      have hdrop : (l ++ 10 :: rest).drop (l.length + 1) = rest := by simp
      rw [flushLines, hindex, if_neg hne, htake, hdrop, ih (by omega), splitLines_line hl]

theorem splitLines_append (x y : Bytes) : splitLines (x ++ y) = ((splitLines x).1 ++
    (splitLines ((splitLines x).2 ++ y)).1, (splitLines ((splitLines x).2 ++ y)).2) := by
  induction x using lines_induction with
  | htail t ht => rw [splitLines_tail ht, nil_append]
  | hline l rest hl ih => rw [append_assoc, cons_append, splitLines_line hl, splitLines_line hl, ih, cons_append]

theorem splitLines_parts (b : Bytes) : (splitLines b).1.flatten ++ (splitLines b).2 = b ∧
    (∀ line ∈ (splitLines b).1, IsLine line) ∧ 10 ∉ (splitLines b).2 := by
  induction b using lines_induction with
  | htail t ht =>
    rw [splitLines_tail ht]
    exact ⟨rfl, fun _ h => absurd h not_mem_nil, ht⟩
  | hline l rest hl ih =>
    obtain ⟨hflat, hlines, htail⟩ := ih
    rw [splitLines_line hl]
    refine ⟨?_, forall_mem_cons.mpr ⟨⟨l, rfl, hl⟩, hlines⟩, htail⟩
    rw [flatten_cons, append_assoc, hflat, append_assoc]
    rfl

/-- The texts of the log events for all that was written. -/
def logTexts (b : Bytes) : List Bytes :=
  (splitLines b).1 ++ if (splitLines b).2 = [] then [] else [(splitLines b).2]

namespace Core

def logEvent (id text : Bytes) : Event := ⟨id, .note (.log text)⟩

theorem print_run {s : Core} {n : Nat} {id pending : Bytes} (hlog : s.log = some ⟨n, id, pending⟩)
    (hpending : 10 ∉ pending) (writes : List Bytes) :
    let split := splitLines (pending ++ writes.flatten)
    (writes.foldl print s).log = some ⟨n, id, split.2⟩ ∧
      (writes.foldl print s).written n = s.written n ++ split.1.map (logEvent id) := by
  induction writes generalizing s pending with
  | nil =>
    rw [flatten_nil, append_nil, splitLines_tail hpending]
    exact ⟨hlog, (append_nil _).symm⟩
  | cons x writes ih =>
    have hprint : (s.print x).log = some ⟨n, id, (splitLines (pending ++ x)).2⟩ ∧
        (s.print x).written n = s.written n ++ (splitLines (pending ++ x)).1.map (logEvent id) := by
      rw [print, hlog]
      exact ⟨rfl, update_self ..⟩
    obtain ⟨hlog', hwritten⟩ := ih hprint.1 (splitLines_parts _).2.2
    rw [hprint.2, append_assoc, ← map_append] at hwritten
    rw [flatten_cons, ← append_assoc, splitLines_append]
    exact ⟨hlog', hwritten⟩

/-- However the bytes are split into writes, the log events are the lines of the whole, and a last text without a
newline if there is one. -/
theorem log_lines (s : Core) (n : Nat) (id : Bytes) (writes : List Bytes) :
    let texts := logTexts writes.flatten
    (writes.foldl print { s with log := some ⟨n, id, []⟩ }).closeLog.written n =
      s.written n ++ texts.map (logEvent id) ∧
    texts.flatten = writes.flatten ∧ [] ∉ texts ∧
    (∀ text ∈ texts, IsLine text ∨ 10 ∉ text) ∧ (∀ text ∈ texts.dropLast, IsLine text) ∧
    ∀ pending : Bytes, flushLines pending.length pending = splitLines pending := by
  obtain ⟨hflat, hlines, htail⟩ := splitLines_parts writes.flatten
  obtain ⟨hlog, hwritten⟩ := print_run (s := { s with log := some ⟨n, id, []⟩ }) rfl not_mem_nil writes
  rw [nil_append] at hlog hwritten
  have hnil : [] ∉ (splitLines writes.flatten).1 := fun h => by
    obtain ⟨l, hl, -⟩ := hlines _ h
    exact append_ne_nil_of_right_ne_nil l (cons_ne_nil _ _) hl.symm
  refine ⟨?_, ?_, ?_, ?_, ?_, fun pending => flushLines_eq le_rfl⟩
  · rw [closeLog, hlog]
    refine (update_self ..).trans ?_
    rw [hwritten, append_assoc, logTexts, map_append]
    split_ifs <;> rfl
  all_goals rw [logTexts]
  all_goals split_ifs with hempty
  · rwa [append_nil, ← append_nil (flatten _), ← hempty]
  · rwa [flatten_append, flatten_singleton]
  · rwa [append_nil]
  · exact fun h => (mem_append.mp h).elim hnil fun h => hempty (mem_singleton.mp h).symm
  · rw [append_nil]
    exact fun text h => .inl (hlines text h)
  · exact forall_mem_append.mpr ⟨fun text h => .inl (hlines text h), forall_mem_singleton.mpr (.inr htail)⟩
  · rw [append_nil]
    exact fun text h => hlines text (mem_of_mem_dropLast h)
  · rw [dropLast_concat]
    exact hlines

end Core

end AeraRecovery.Rpc
