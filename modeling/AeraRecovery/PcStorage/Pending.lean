import AeraRecovery.PcStorage.Mount

namespace AeraRecovery.PcStorage

open Lib Bytes Storage List Function

def OpenFile.piece (f : OpenFile) : Piece := (f.offset, f.pending)

def OpenFile.Apart (f g : OpenFile) : Prop := f.path = g.path → f.piece.Disjoint g.piece

theorem OpenFile.Apart.symm {f g : OpenFile} (h : f.Apart g) : g.Apart f := fun hpath => (h hpath.symm).symm

def pieces (writers : List OpenFile) (path : Bytes) : List Piece :=
  (writers.filter fun f => f.path = path).map OpenFile.piece

def Node.patch (ws : List Piece) : Node → Node
  | file content => file (Storage.patch content ws)
  | folder => folder

/-- The files of the peer with everything that is pending for them. -/
def effective (peer : Tree) (writers : List OpenFile) (path : Bytes) : Option Node :=
  (peer path).map (Node.patch (pieces writers path))

def OpenFile.Ahead (t : Tree) (f : OpenFile) : Prop :=
  f.readData = [] ∨ ∃ c, t f.path = some (.file c) ∧ f.readData = c.slice f.readOffset kReadBlock

/-- The peer with what is pending has the files that the calls have made. What is pending in different open files of one
path is for different bytes. -/
structure Coherent (s : Mount) : Prop where
  addresses : (s.writers.map OpenFile.address).Nodup
  exist : ∀ f ∈ s.writers, ∃ c, s.peer f.path = some (.file c)
  disjoint : s.writers.Pairwise OpenFile.Apart
  tree : ∀ path, s.tree path = effective s.peer s.writers path
  ahead : ∀ f ∈ s.writers, f.Ahead s.tree

section

variable {l l' : List OpenFile} {f g : OpenFile} {path : Bytes} {peer : Tree}

theorem pieces_append : pieces (l ++ l') path = pieces l path ++ pieces l' path := by
  rw [pieces, filter_append, map_append]
  rfl

theorem pieces_cons (h : f.path = path) : pieces (f :: l) path = f.piece :: pieces l path := by
  rw [pieces, filter_cons_of_pos (by simpa using h), map_cons]
  rfl

theorem pieces_cons_of_ne (h : f.path ≠ path) : pieces (f :: l) path = pieces l path := by
  rw [pieces, filter_cons_of_neg (by simpa using h)]
  rfl

theorem pieces_map {change : OpenFile → OpenFile} (hpath : ∀ f, (change f).path = f.path)
    (hpiece : ∀ f, (change f).piece = f.piece) : pieces (l.map change) path = pieces l path := by
  induction l with
  | nil => rfl
  | cons f l ih =>
    rw [map_cons]
    by_cases hf : f.path = path
    · rw [pieces_cons ((hpath f).trans hf), pieces_cons hf, hpiece, ih]
    · rw [pieces_cons_of_ne (by rwa [hpath]), pieces_cons_of_ne hf, ih]

theorem mem_pieces {w : Piece} : w ∈ pieces l path ↔ ∃ f ∈ l, f.path = path ∧ f.piece = w := by
  simp only [pieces, mem_map, mem_filter, decide_eq_true_eq, and_assoc]

theorem disjoint_pieces (path : Bytes) (h : l.Pairwise OpenFile.Apart) : (pieces l path).Pairwise Piece.Disjoint := by
  rw [pieces, pairwise_map]
  have hsame : ∀ f ∈ l.filter fun f => f.path = path, f.path = path := by simp
  refine List.Pairwise.imp_of_mem ?_ (h.filter _)
  intro f g hf hg hdisjoint
  exact hdisjoint ((hsame f hf).trans (hsame g hg).symm)

theorem patch_nils {ws : List Piece} (h : ∀ w ∈ ws, w.2 = []) (node : Node) : node.patch ws = node := by
  cases node with
  | folder => rfl
  | file content =>
    rw [Node.patch]
    congr 1
    induction ws with
    | nil => rfl
    | cons w ws ih =>
      rw [forall_mem_cons] at h
      rw [patch_cons, h.1, pwrite_nil, ih h.2]

theorem effective_of_flushed (h : ∀ f ∈ l, f.path = path → f.pending = []) : effective peer l path = peer path := by
  have hnils : ∀ w ∈ pieces l path, w.2 = [] := by
    intro w hw
    obtain ⟨f, hf, hpath, rfl⟩ := mem_pieces.mp hw
    exact h f hf hpath
  rw [effective]
  cases peer path with
  | none => rfl
  | some node => rw [Option.map_some, patch_nils hnils]

end

section

variable {s s' : Mount} {f : OpenFile} {address : Nat}

theorem find_split (haddresses : (s.writers.map OpenFile.address).Nodup) (h : s.find address = some f) :
    ∃ l l', s.writers = l ++ f :: l' ∧ f.address = address ∧ ∀ g ∈ l ++ l', g.address ≠ address := by
  obtain ⟨haddress, l, l', hwriters, -⟩ := List.find?_eq_some_iff_append.mp h
  have hf : f.address = address := by simpa using haddress
  refine ⟨l, l', hwriters, hf, ?_⟩
  rw [hwriters, map_append, map_cons] at haddresses
  have hnot := (nodup_cons.mp (nodup_middle.mp haddresses)).1
  intro g hg hsame
  rw [← map_append] at hnot
  exact hnot (mem_map.mpr ⟨g, hg, hsame.trans hf.symm⟩)

theorem mem_of_find (h : s.find address = some f) : f ∈ s.writers := mem_of_find?_eq_some h

variable {l : List OpenFile}

theorem writers_modify {l' : List OpenFile} (change : OpenFile → OpenFile) (hwriters : s.writers = l ++ f :: l')
    (hf : f.address = address) (hother : ∀ g ∈ l ++ l', g.address ≠ address) :
    (s.modify (fun f => f.address = address) change).writers = l ++ change f :: l' := by
  have hkeep : ∀ k : List OpenFile, (∀ g ∈ k, g.address ≠ address) →
      k.map (fun g => if decide (g.address = address) = true then change g else g) = k := by
    intro k hk
    have hid : ∀ g ∈ k, (if decide (g.address = address) = true then change g else g) = g :=
      fun g hg => if_neg (by simpa using hk g hg)
    exact (map_congr_left hid).trans (map_id k)
  rw [forall_mem_append] at hother
  rw [Mount.modify, hwriters, map_append, map_cons, hkeep l hother.1, hkeep l' hother.2, if_pos (decide_eq_true hf)]

theorem Coherent.map {change : OpenFile → OpenFile} (h : Coherent s) (haddress : ∀ f, (change f).address = f.address)
    (hpath : ∀ f, (change f).path = f.path) (hpiece : ∀ f, (change f).piece = f.piece)
    (hahead : ∀ f ∈ s.writers, (change f).Ahead s.tree) : Coherent { s with writers := s.writers.map change } := by
  constructor
  · have hsame : OpenFile.address ∘ change = OpenFile.address := funext haddress
    rw [map_map, hsame]
    exact h.addresses
  · intro g hg
    obtain ⟨f, hf, rfl⟩ := mem_map.mp hg
    rw [hpath]
    exact h.exist f hf
  · rw [pairwise_map]
    refine h.disjoint.imp fun {f g} hfg => ?_
    rw [OpenFile.Apart, hpath, hpath, hpiece, hpiece]
    exact hfg
  · intro path
    rw [effective, pieces_map hpath hpiece]
    exact h.tree path
  · intro g hg
    obtain ⟨f, hf, rfl⟩ := mem_map.mp hg
    exact hahead f hf

theorem Coherent.modify {which : OpenFile → Bool} {change : OpenFile → OpenFile} (h : Coherent s)
    (haddress : ∀ f, (change f).address = f.address) (hpath : ∀ f, (change f).path = f.path)
    (hpiece : ∀ f, (change f).piece = f.piece)
    (hahead : ∀ f ∈ s.writers, which f = true → (change f).Ahead s.tree) : Coherent (s.modify which change) := by
  refine h.map (fun f => ?_) (fun f => ?_) (fun f => ?_) fun f hf => ?_
  · split_ifs
    · exact haddress f
    · rfl
  · split_ifs
    · exact hpath f
    · rfl
  · split_ifs
    · exact hpiece f
    · rfl
  · split_ifs with hwhich
    · exact hahead f hf hwhich
    · exact h.ahead f hf

theorem alter_eq_some {t t' : Tree} {path : Bytes} {change : Bytes → Bytes} (h : t.alter path change = some t') :
    ∃ c, t path = some (.file c) ∧ t' = update t path (some (.file (change c))) := by
  rw [Tree.alter] at h
  split at h
  · rename_i c hc
    exact ⟨c, hc, (Option.some.inj h).symm⟩
  · cases h
  · cases h

theorem exist_update {peer : Tree} {p q c' : Bytes} (hq : ∃ c, peer q = some (.file c)) :
    ∃ d, update peer p (some (.file c')) q = some (.file d) := by
  by_cases hpq : q = p
  · exact ⟨c', by rw [hpq, update_self]⟩
  · rw [update_of_ne hpq]
    exact hq

theorem patch_middle_nil {content : Bytes} {ws ws' : List Piece} {w : Piece} (h : w.2 = []) :
    patch content (ws ++ w :: ws') = patch content (ws ++ ws') := by
  rw [patch_append, patch_cons, h, pwrite_nil, ← patch_append]

theorem effective_flush {peer : Tree} {l' : List OpenFile} {c : Bytes} (hpeer : peer f.path = some (.file c))
    (hdisjoint : (l ++ f :: l').Pairwise OpenFile.Apart) (path : Bytes) :
    effective (update peer f.path (some (.file (pwrite c f.offset f.pending))))
      (l ++ Mount.clearPending f :: l') path = effective peer (l ++ f :: l') path := by
  rw [effective, effective, pieces_append, pieces_append]
  by_cases hpath : f.path = path
  · have hpieces := disjoint_pieces path hdisjoint
    rw [pieces_append, pieces_cons hpath] at hpieces
    rw [pieces_cons (f := Mount.clearPending f) hpath, pieces_cons hpath, ← hpath, update_self, hpeer,
      Option.map_some, Option.map_some, Node.patch, Node.patch, hpath, patch_middle_nil rfl, patch_first hpieces]
    rfl
  · rw [pieces_cons_of_ne (f := Mount.clearPending f) hpath, pieces_cons_of_ne hpath,
      update_of_ne (fun heq => hpath heq.symm)]

theorem pairwise_cleared (cleared : OpenFile → Bool) (h : l.Pairwise OpenFile.Apart) :
    (l.map fun f => if cleared f then Mount.clearPending f else f).Pairwise OpenFile.Apart := by
  rw [pairwise_map]
  refine h.imp fun {f g} hfg => ?_
  cases cleared f with
  | true => exact fun _ => .inl rfl
  | false =>
    cases cleared g with
    | true => exact fun _ => .inr (.inl rfl)
    | false => exact hfg

theorem Coherent.flush (h : Coherent s) (hflush : s.flush address = some s') : Coherent s' ∧ s'.tree = s.tree ∧
      s'.writers = s.writers.map fun f => if f.address = address then Mount.clearPending f else f := by
  rw [Mount.flush] at hflush
  cases hfind : s.find address with
  | none =>
    rw [hfind] at hflush
    cases hflush
  | some f =>
    rw [hfind] at hflush
    obtain ⟨l, l', hwriters, hf, hother⟩ := find_split h.addresses hfind
    dsimp only at hflush
    split_ifs at hflush with hpending
    · cases hflush
      refine ⟨h, rfl, ?_⟩
      have hmodify := writers_modify Mount.clearPending hwriters hf hother
      have hsame : Mount.clearPending f = f := by
        rw [Mount.clearPending, ← hpending]
      rw [hsame, ← hwriters] at hmodify
      exact (hmodify.symm.trans (by simp only [Mount.modify, decide_eq_true_eq]))
    · obtain ⟨peer, hwrite, hs'⟩ := Option.map_eq_some_iff.mp hflush
      obtain ⟨c, hpeer, hpeer'⟩ := alter_eq_some hwrite
      have hmap : s'.writers = s.writers.map fun f => if f.address = address then Mount.clearPending f else f := by
        rw [← hs']
        simp only [Mount.modify, decide_eq_true_eq]
      have hmiddle : s'.writers = l ++ Mount.clearPending f :: l' := by
        rw [← hs']
        exact writers_modify (s := { s with peer := peer }) _ hwriters hf hother
      have htree : s'.tree = s.tree := by rw [← hs']; rfl
      have hpeers : s'.peer = peer := by rw [← hs']; rfl
      have hfiles : ∀ g ∈ s'.writers, ∃ e ∈ s.writers, g.path = e.path ∧ g.readData = e.readData ∧
          g.readOffset = e.readOffset := by
        intro g hg
        rw [hmap] at hg
        obtain ⟨e, he, rfl⟩ := mem_map.mp hg
        refine ⟨e, he, ?_⟩
        split_ifs
        · exact ⟨rfl, rfl, rfl⟩
        · exact ⟨rfl, rfl, rfl⟩
      refine ⟨⟨?_, ?_, ?_, ?_, ?_⟩, htree, hmap⟩
      · rw [hmiddle, map_append, map_cons]
        have haddresses := h.addresses
        rw [hwriters, map_append, map_cons] at haddresses
        exact haddresses
      · intro g hg
        obtain ⟨e, he, hpath, -⟩ := hfiles g hg
        rw [hpeers, hpath, hpeer']
        exact exist_update (h.exist e he)
      · rw [hmap]
        simpa only [decide_eq_true_eq] using pairwise_cleared (fun f => f.address = address) h.disjoint
      · intro path
        rw [htree, h.tree path, hpeers, hmiddle, hwriters, hpeer']
        exact (effective_flush hpeer (hwriters ▸ h.disjoint) path).symm
      · intro g hg
        obtain ⟨e, he, hpath, hdata, hoffset⟩ := hfiles g hg
        rw [OpenFile.Ahead, htree, hpath, hdata, hoffset]
        exact h.ahead e he

theorem clearPending_cases (cleared : Prop) [Decidable cleared] (f : OpenFile) :
    (if cleared then Mount.clearPending f else f).address = f.address ∧
      (if cleared then Mount.clearPending f else f).path = f.path := by
  split_ifs
  · exact ⟨rfl, rfl⟩
  · exact ⟨rfl, rfl⟩

theorem Coherent.flushes {addresses : List Nat} (h : Coherent s) (hflush : addresses.foldlM Mount.flush s = some s') :
    Coherent s' ∧ s'.tree = s.tree ∧
      s'.writers = s.writers.map fun f => if f.address ∈ addresses then Mount.clearPending f else f := by
  induction addresses generalizing s with
  | nil =>
    cases hflush
    refine ⟨h, rfl, ?_⟩
    simp only [not_mem_nil, if_false, map_id']
  | cons address addresses ih =>
    obtain ⟨t, ht, hrest⟩ := Option.bind_eq_some_iff.mp hflush
    obtain ⟨hcoherent, htree, hwriters⟩ := h.flush ht
    obtain ⟨hcoherent', htree', hwriters'⟩ := ih hcoherent hrest
    refine ⟨hcoherent', htree'.trans htree, ?_⟩
    rw [hwriters', hwriters, map_map]
    refine map_congr_left fun f _ => ?_
    simp only [comp, (clearPending_cases _ f).1, mem_cons]
    by_cases hf : f.address = address
    · simp only [hf, true_or, if_true]
      split_ifs
      · rfl
      · rfl
    · simp only [hf, false_or, if_false]

theorem Coherent.flushAll {which : OpenFile → Bool} (h : Coherent s) (hflush : s.flushAll which = some s') :
    Coherent s' ∧ s'.tree = s.tree ∧
      s'.writers = s.writers.map fun f => if which f then Mount.clearPending f else f := by
  obtain ⟨hcoherent, htree, hwriters⟩ := h.flushes hflush
  refine ⟨hcoherent, htree, hwriters.trans (map_congr_left fun f hf => ?_)⟩
  have hiff : f.address ∈ (s.writers.filter which).map OpenFile.address ↔ which f := by
    constructor
    · intro hmem
      obtain ⟨g, hg, hsame⟩ := mem_map.mp hmem
      rw [← inj_on_of_nodup_map h.addresses (mem_filter.mp hg).1 hf hsame]
      exact (mem_filter.mp hg).2
    · intro hwhich
      exact mem_map.mpr ⟨f, mem_filter.mpr ⟨hf, hwhich⟩, rfl⟩
  simp only [hiff]

/-- Open files that have changed without a call that says so: something pending may have been sent. -/
structure Quiet (change : OpenFile → OpenFile) (s s' : Mount) : Prop where
  tree : s'.tree = s.tree
  writers : s'.writers = s.writers.map change
  address : ∀ f, (change f).address = f.address
  path : ∀ f, (change f).path = f.path
  piece : ∀ f, (change f).piece = f.piece ∨ (change f).pending = []

variable {t : Mount} {change change' : OpenFile → OpenFile} {which : OpenFile → Bool}

theorem Quiet.refl : Quiet id s s where
  tree := rfl
  writers := (map_id _).symm
  address _ := rfl
  path _ := rfl
  piece _ := .inl rfl

theorem Quiet.trans (h : Quiet change s t) (h' : Quiet change' t s') : Quiet (change' ∘ change) s s' where
  tree := h'.tree.trans h.tree
  writers := by rw [h'.writers, h.writers, map_map]
  address f := (h'.address _).trans (h.address f)
  path f := (h'.path _).trans (h.path f)
  piece f := by
    rcases h'.piece (change f) with hsame' | hsent'
    · rcases h.piece f with hsame | hsent
      · exact .inl (hsame'.trans hsame)
      · exact .inr ((congrArg Prod.snd hsame').trans hsent)
    · exact .inr hsent'

theorem Quiet.find (h : Quiet change s s') (hfind : s.find address = some f) : s'.find address = some (change f) := by
  have hsame : (fun f => decide (f.address = address)) ∘ change = fun f => decide (f.address = address) := by
    funext g
    rw [comp, h.address]
  rw [Mount.find, h.writers, List.find?_map, hsame]
  exact congrArg (Option.map change) hfind

/-- Nothing is pending in another open file of the path for bytes of the piece. -/
def Free (s : Mount) (address : Nat) (path : Bytes) (w : Piece) : Prop :=
  ∀ g ∈ s.writers, g.address ≠ address → g.path = path → g.piece.Disjoint w

theorem Quiet.free {path : Bytes} {w : Piece} (h : Quiet change s s') (hfree : Free s address path w) :
    Free s' address path w := by
  intro e he haddress hpath
  rw [h.writers] at he
  obtain ⟨g, hg, rfl⟩ := mem_map.mp he
  rw [h.address] at haddress
  rw [h.path] at hpath
  rcases h.piece g with hsame | hsent
  · rw [hsame]
    exact hfree g hg haddress hpath
  · exact .inl hsent

theorem Quiet.modify (haddress : ∀ f, (change f).address = f.address) (hpath : ∀ f, (change f).path = f.path)
    (hpiece : ∀ f, (change f).piece = f.piece) :
    Quiet (fun f => if which f then change f else f) s (s.modify which change) where
  tree := rfl
  writers := rfl
  address f := by
    split_ifs
    · exact haddress f
    · rfl
  path f := by
    split_ifs
    · exact hpath f
    · rfl
  piece f := by
    split_ifs
    · exact .inl (hpiece f)
    · exact .inl rfl

theorem quiet_cleared {cleared : OpenFile → Prop} [DecidablePred cleared] (htree : s'.tree = s.tree)
    (hwriters : s'.writers = s.writers.map fun f => if cleared f then Mount.clearPending f else f) :
    Quiet (fun f => if cleared f then Mount.clearPending f else f) s s' where
  tree := htree
  writers := hwriters
  address f := (clearPending_cases (cleared f) f).1
  path f := (clearPending_cases (cleared f) f).2
  piece f := by
    split_ifs
    · exact .inr rfl
    · exact .inl rfl

theorem Coherent.evict (h : Coherent s) (hevict : s.evict address = some s') :
    Coherent s' ∧ ∃ change, Quiet change s s' ∧ ∀ f, f.address = address → (change f).piece = f.piece := by
  obtain ⟨t, ht, hs'⟩ := Option.bind_eq_some_iff.mp hevict
  obtain ⟨hcoherent, htree, hwriters⟩ := h.flushAll ht
  cases hs'
  refine ⟨hcoherent.modify (fun _ => rfl) (fun _ => rfl) (fun _ => rfl) fun f hf _ => hcoherent.ahead f hf, _,
    (quiet_cleared htree hwriters).trans (Quiet.modify (fun _ => rfl) (fun _ => rfl) fun _ => rfl), ?_⟩
  intro f hf
  simp only [comp, hf, ne_eq, not_true_eq_false, decide_false, Bool.false_and, Bool.false_eq_true, if_false]

end

end AeraRecovery.PcStorage
