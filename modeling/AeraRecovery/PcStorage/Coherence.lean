import AeraRecovery.Lib.Steps
import AeraRecovery.PcStorage.Pending

namespace AeraRecovery.PcStorage

open Lib Bytes Storage Steps List Function

variable {s s' : Mount} {f : OpenFile} {l l' : List OpenFile} {address offset grown : Nat} {path data : Bytes}

theorem pairwise_apart : (l ++ f :: l').Pairwise OpenFile.Apart ↔
    (∀ g ∈ l ++ l', f.Apart g) ∧ (l ++ l').Pairwise OpenFile.Apart := by
  have hsymm : ∀ {f g : OpenFile}, f.Apart g → g.Apart f := OpenFile.Apart.symm
  rw [pairwise_middle hsymm, pairwise_cons]

section

theorem piece_append_of_nil (h : f.pending = []) : (Mount.append data offset grown f).piece = (offset, data) := by
  simp only [Mount.append, OpenFile.piece, h, if_true, nil_append]

theorem piece_append_of_ne (h : f.pending ≠ []) :
    (Mount.append data offset grown f).piece = (f.offset, f.pending ++ data) := by
  simp only [Mount.append, OpenFile.piece, h, if_false]

def OpenFile.Continues (f : OpenFile) (offset : Nat) : Prop := f.pending = [] ∨ offset = f.offset + f.pending.length

theorem disjoint_append {w : Piece} (hold : w.Disjoint f.piece) (hnew : w.Disjoint (offset, data))
    (hnext : f.Continues offset) : w.Disjoint (Mount.append data offset grown f).piece := by
  by_cases hpending : f.pending = []
  · rw [piece_append_of_nil hpending]
    exact hnew
  · rw [piece_append_of_ne hpending]
    exact hold.append (hnext.resolve_left hpending ▸ hnew) hpending

theorem pwrite_appended {content : Bytes} (hnext : f.Continues offset) :
    pwrite content (Mount.append data offset grown f).piece.1 (Mount.append data offset grown f).piece.2 =
      pwrite (pwrite content f.piece.1 f.piece.2) offset data := by
  by_cases hpending : f.pending = []
  · rw [piece_append_of_nil hpending, OpenFile.piece, hpending, pwrite_nil]
  · rw [piece_append_of_ne hpending, pwrite_append, hnext.resolve_left hpending]
    rfl

theorem effective_append {peer : Tree} {c : Bytes} (hpeer : peer f.path = some (.file c))
    (hnext : f.Continues offset) (hapart : (l ++ f :: l').Pairwise OpenFile.Apart)
    (hnew : (l ++ Mount.append data offset grown f :: l').Pairwise OpenFile.Apart)
    (hfree : ∀ g ∈ l ++ l', g.path = f.path → g.piece.Disjoint (offset, data)) :
    effective peer (l ++ Mount.append data offset grown f :: l') = update (effective peer (l ++ f :: l')) f.path
        (some (.file (pwrite (patch c (pieces (l ++ f :: l') f.path)) offset data))) := by
  have hsame : (Mount.append data offset grown f).path = f.path := rfl
  funext path
  by_cases hpath : f.path = path
  · subst hpath
    have hold := disjoint_pieces f.path hapart
    have hnew := disjoint_pieces f.path hnew
    rw [pieces_append, pieces_cons rfl] at hold
    rw [pieces_append, pieces_cons hsame] at hnew
    have hpieces : ∀ w ∈ pieces l f.path ++ pieces l' f.path, w.Disjoint (offset, data) := by
      intro w hw
      rw [← pieces_append] at hw
      obtain ⟨g, hg, hpath, rfl⟩ := mem_pieces.mp hw
      exact hfree g hg hpath
    rw [update_self, effective, hpeer, pieces_append, pieces_append, pieces_cons rfl, pieces_cons hsame,
      Option.map_some, Node.patch, patch_first hnew, pwrite_appended hnext, patch_first hold,
      pwrite_patch (v := (offset, data)) hpieces]
  · rw [update_of_ne (fun heq => hpath heq.symm), effective, effective, pieces_append, pieces_append,
      pieces_cons_of_ne hpath, pieces_cons_of_ne (f := Mount.append data offset grown f) hpath]

theorem Coherent.append (h : Coherent s) (hfind : s.find address = some f) (hpath : f.path = path)
    (hnext : f.Continues offset) (hfree : Free s address path (offset, data))
    (hclean : ∀ g ∈ s.writers, g.path = path → g.readData = []) (grown : Nat) :
    Coherent { s.modify (fun f => f.address = address) (Mount.append data offset grown) with
      tree := (s.tree.write path offset data).getD s.tree } := by
  subst hpath
  obtain ⟨l, l', hwriters, hf, hother⟩ := find_split h.addresses hfind
  obtain ⟨c, hpeer⟩ := h.exist f (mem_of_find hfind)
  have hmodify := writers_modify (Mount.append data offset grown) hwriters hf hother
  have hmem : ∀ g ∈ l ++ l', g ∈ s.writers := by
    intro g hg
    rw [hwriters]
    exact mem_append.mpr ((mem_append.mp hg).imp_right (mem_cons_of_mem f))
  have hfree' : ∀ g ∈ l ++ l', g.path = f.path → g.piece.Disjoint (offset, data) :=
    fun g hg => hfree g (hmem g hg) (hother g hg)
  have hapart := h.disjoint
  rw [hwriters] at hapart
  have hnew : (l ++ Mount.append data offset grown f :: l').Pairwise OpenFile.Apart := by
    rw [pairwise_apart] at hapart ⊢
    refine ⟨fun g hg hpath => ?_, hapart.2⟩
    exact (disjoint_append (hapart.1 g hg hpath).symm (hfree' g hg hpath.symm) hnext).symm
  have htree : s.tree = effective s.peer (l ++ f :: l') := by
    funext path
    rw [h.tree, hwriters]
  have hwrite : (s.tree.write f.path offset data).getD s.tree =
      effective s.peer (l ++ Mount.append data offset grown f :: l') := by
    rw [effective_append hpeer hnext hapart hnew hfree', htree, Tree.write, Tree.alter, effective, hpeer]
    rfl
  have hfiles : ∀ g ∈ (s.modify (fun f => f.address = address) (Mount.append data offset grown)).writers,
      ∃ e ∈ s.writers, g.path = e.path ∧ g.readData = e.readData ∧ g.readOffset = e.readOffset := by
    intro g hg
    obtain ⟨e, he, rfl⟩ := mem_map.mp hg
    refine ⟨e, he, ?_⟩
    split_ifs
    · exact ⟨rfl, rfl, rfl⟩
    · exact ⟨rfl, rfl, rfl⟩
  constructor
  · have haddresses := h.addresses
    rw [hwriters, map_append, map_cons] at haddresses
    rw [hmodify, map_append, map_cons]
    exact haddresses
  · intro g hg
    obtain ⟨e, he, hpath, -⟩ := hfiles g hg
    rw [hpath]
    exact h.exist e he
  · dsimp only
    rw [hmodify]
    exact hnew
  · intro path
    rw [hwrite, hmodify]
    rfl
  · intro g hg
    obtain ⟨e, he, hpath, hdata, hoffset⟩ := hfiles g hg
    rw [OpenFile.Ahead, hpath, hdata, hoffset]
    by_cases hsame : e.path = f.path
    · exact .inl (hclean e he hsame)
    · dsimp only
      rw [hwrite, effective_append hpeer hnext hapart hnew hfree', update_of_ne hsame, ← htree]
      exact h.ahead e he

section

variable {which : OpenFile → Bool}

theorem Coherent.clearReadData (h : Coherent s) : Coherent (s.modify which Mount.clearReadData) :=
  h.modify (fun _ => rfl) (fun _ => rfl) (fun _ => rfl) fun _ _ _ => .inl rfl

theorem quiet_clearReadData (s : Mount) (which : OpenFile → Bool) :
    ∃ change, Quiet change s (s.modify which Mount.clearReadData) ∧ ∀ f, (change f).piece = f.piece := by
  refine ⟨_, Quiet.modify (fun _ => rfl) (fun _ => rfl) fun _ => rfl, fun f => ?_⟩
  split_ifs
  · rfl
  · rfl

theorem readData_of_cleared (h : f ∈ (s.modify (fun f => f.path = path) Mount.clearReadData).writers)
    (hpath : f.path = path) : f.readData = [] := by
  obtain ⟨e, -, rfl⟩ := mem_map.mp h
  split_ifs at hpath ⊢ with he
  · rfl
  · exact absurd (decide_eq_true hpath) he

end

theorem Coherent.makeRoom {size : Nat} (h : Coherent s) (hroom : s.makeRoom address size = some s') :
    Coherent s' ∧ ∃ change, Quiet change s s' ∧ ∀ f, f.address = address → (change f).piece = f.piece := by
  rw [Mount.makeRoom] at hroom
  split_ifs at hroom
  · exact h.evict hroom
  · cases hroom
    exact ⟨h, id, Quiet.refl, fun _ _ => rfl⟩

theorem Coherent.breakBlock {file : OpenFile} {size : Nat} (h : Coherent s) (hpiece : f.piece = file.piece)
    (haddress : f.address = file.address) (hbreak : s.breakBlock file size offset = some s') :
    Coherent s' ∧ ∃ change, Quiet change s s' ∧ (change f).Continues offset ∧ ∀ g, (change g).readData = g.readData := by
  rw [Mount.breakBlock] at hbreak
  split_ifs at hbreak with hcond
  · obtain ⟨hcoherent, htree, hwriters⟩ := h.flush hbreak
    refine ⟨hcoherent, _, quiet_cleared htree hwriters, .inl ?_, fun g => ?_⟩
    · rw [if_pos haddress]
      rfl
    · split_ifs
      · rfl
      · rfl
  · cases hbreak
    refine ⟨h, id, Quiet.refl, ?_, fun _ => rfl⟩
    obtain ⟨hoffset, hpending⟩ := Prod.mk.inj hpiece
    rw [id, OpenFile.Continues, hoffset, hpending]
    by_cases hnil : file.pending = []
    · exact .inl hnil
    · exact .inr (not_not.mp fun hne => hcond ⟨hnil, .inl hne⟩)

theorem Coherent.flushFull (h : Coherent s) (hflush : s.flushFull address = some s') : Coherent s' := by
  rw [Mount.flushFull] at hflush
  split_ifs at hflush
  · exact (h.flush hflush).1
  · cases hflush
    exact h

theorem Coherent.write (h : Coherent s)
    (hfree : ∀ f ∈ s.writers, f.address = address → Free s address f.path (offset, data))
    (hwrite : s.write address data offset grown = some s') : Coherent s' := by
  rw [Mount.write] at hwrite
  split_ifs at hwrite with hlarge
  · cases hwrite
    exact h
  obtain ⟨f, hfind, hwrite⟩ := Option.bind_eq_some_iff.mp hwrite
  have haddress : f.address = address := by simpa using find?_some hfind
  have hfree := hfree f (mem_of_find hfind) haddress
  obtain ⟨s₁, hroom, hwrite⟩ := Option.bind_eq_some_iff.mp hwrite
  obtain ⟨h₁, change, hquiet, hpiece⟩ := h.makeRoom hroom
  obtain ⟨change₂, hquiet₂, hpiece₂⟩ := quiet_clearReadData s₁ fun g => g.path = f.path
  obtain ⟨s₃, hbreak, hwrite⟩ := Option.bind_eq_some_iff.mp hwrite
  have hquiet := hquiet.trans hquiet₂
  obtain ⟨h₃, change₃, hquiet₃, hnext, hdata⟩ := h₁.clearReadData.breakBlock
    ((hpiece₂ _).trans (hpiece f haddress)) (hquiet.address f) hbreak
  have hall := hquiet.trans hquiet₃
  refine (h₃.append (hall.find hfind) (hall.path f) hnext (hall.free hfree) ?_ grown).flushFull hwrite
  intro g hg hpath
  rw [hquiet₃.writers] at hg
  obtain ⟨e, he, rfl⟩ := mem_map.mp hg
  rw [hdata]
  exact readData_of_cleared he ((hquiet₃.path e).symm.trans hpath)

end

section

theorem Coherent.peer_eq (h : Coherent s) (hnil : ∀ f ∈ s.writers, f.path = path → f.pending = []) :
    s.peer path = s.tree path := ((h.tree path).trans (effective_of_flushed hnil)).symm

theorem pending_of_flushAll {which : OpenFile → Bool} (hwhich : ∀ f, f.path = path → which f = true)
    (hwriters : s'.writers = s.writers.map fun f => if which f then Mount.clearPending f else f) :
    ∀ f ∈ s'.writers, f.path = path → f.pending = [] := by
  intro f hf hpath
  rw [hwriters] at hf
  obtain ⟨e, -, rfl⟩ := mem_map.mp hf
  rw [(clearPending_cases _ e).2] at hpath
  rw [if_pos (hwhich e hpath)]
  rfl

theorem Coherent.eq_of_find {g : OpenFile} (h : Coherent s) (hfind : s.find address = some f) (hg : g ∈ s.writers)
    (haddress : g.address = address) : g = f := by
  have hf : f.address = address := by simpa using find?_some hfind
  exact inj_on_of_nodup_map h.addresses hg (mem_of_find hfind) (haddress.trans hf.symm)

variable {c : Bytes} {size : Nat}

theorem take_block_prefix (c : Bytes) (size : Nat) {start : Nat} (hstart : start ≤ offset) :
    ((c.slice start kReadBlock).drop (offset - start)).take size <+: c.slice offset size := by
  rw [Bytes.slice, Bytes.slice, drop_take, drop_drop, Nat.add_sub_cancel' hstart, take_take, Nat.min_comm,
    ← take_take]
  exact take_prefix _ _

theorem slice_eq_nil_of_block (h : (c.slice offset kReadBlock).take size = []) : c.slice offset size = [] := by
  rcases take_eq_nil_iff.mp h with hsize | hblock
  · rw [hsize, Bytes.slice, take_zero]
  · rcases take_eq_nil_iff.mp hblock with hzero | hrest
    · exact absurd hzero (by decide)
    · rw [Bytes.slice, hrest, take_nil]

theorem Coherent.read (h : Coherent s) (hread : s.read address size offset = some (data, s')) :
    Coherent s' ∧ ∃ f c, s.find address = some f ∧ s.tree f.path = some (.file c) ∧ data <+: c.slice offset size ∧
      (data = [] → c.slice offset size = []) := by
  obtain ⟨f, hfind, hread⟩ := Option.bind_eq_some_iff.mp hread
  obtain ⟨t, hflush, hread⟩ := Option.bind_eq_some_iff.mp hread
  obtain ⟨hcoherent, htree, hwriters⟩ := h.flushAll hflush
  split_ifs at hread with hcached
  · cases hread
    refine ⟨hcoherent, f, ?_⟩
    rcases h.ahead f (mem_of_find hfind) with hnone | ⟨c, hc, hdata⟩
    · rw [hnone, length_nil] at hcached
      omega
    · refine ⟨c, hfind, hc, hdata ▸ take_block_prefix c size hcached.1, fun hempty => ?_⟩
      rcases take_eq_nil_iff.mp hempty with hsize | hrest
      · rw [hsize, Bytes.slice, take_zero]
      · have hlength := drop_eq_nil_iff.mp hrest
        omega
  · have hnil := pending_of_flushAll (fun g hg => decide_eq_true hg) hwriters
    have hpeer := hcoherent.peer_eq hnil
    obtain ⟨block, hblock, hread⟩ := Option.bind_eq_some_iff.mp hread
    cases hread
    rw [Tree.read] at hblock
    split at hblock
    · rename_i c hc
      have hblock := Option.some.inj hblock
      have hfile : t.tree f.path = some (.file c) := hpeer.symm.trans hc
      refine ⟨?_, f, c, hfind, htree ▸ hfile, ?_, fun hempty => slice_eq_nil_of_block (hblock ▸ hempty)⟩
      · refine hcoherent.clearReadData.modify (fun _ => rfl) (fun _ => rfl) (fun _ => rfl) fun g hg haddress => ?_
        obtain ⟨change, hquiet, -⟩ := quiet_clearReadData t fun f => f.address ≠ address
        have hall := (quiet_cleared htree hwriters).trans hquiet
        have hsame := hcoherent.clearReadData.eq_of_find (hall.find hfind) hg (by simpa using haddress)
        have hpath : g.path = f.path := hsame ▸ hall.path f
        exact .inr ⟨c, hpath ▸ hfile, hblock.symm⟩
      · have hbytes := take_block_prefix c size (Nat.le_refl offset)
        rw [Nat.sub_self, drop_zero, hblock] at hbytes
        exact hbytes
    · cases hblock
    · cases hblock

theorem filter_pieces : (pieces l path).filter (fun w => w.2 ≠ []) =
    (l.filter fun f => f.path = path && f.pending ≠ []).map OpenFile.piece := by
  rw [pieces, filter_map, filter_filter]
  congr 2
  funext f
  exact Bool.and_comm _ _

theorem Coherent.attributes (h : Coherent s) : s.attributes path = s.tree.stat path := by
  rw [Mount.attributes, Tree.stat, Tree.stat, h.tree path, effective]
  cases hnode : s.peer path with
  | none => rfl
  | some node =>
    cases node with
    | file c =>
      simp only [Option.map_some, Node.patch]
      rw [length_patch_eq_foldl, filter_pieces, foldl_map]
      rfl
    | folder =>
      have hnone : s.writers.filter (fun f => f.path = path && f.pending ≠ []) = [] := by
        rw [filter_eq_nil_iff]
        intro f hf hboth
        rw [Bool.and_eq_true, decide_eq_true_eq] at hboth
        obtain ⟨c, hc⟩ := h.exist f hf
        rw [hboth.1, hnode] at hc
        cases hc
      simp only [Option.map_some, Node.patch, hnone, foldl_nil]

end

section

theorem effective_nil {peer : Tree} (hnil : f.pending = []) :
    effective peer (l ++ f :: l') path = effective peer (l ++ l') path := by
  rw [effective, effective, pieces_append, pieces_append]
  by_cases hpath : f.path = path
  · rw [pieces_cons hpath]
    cases peer path with
    | none => rfl
    | some node =>
      cases node with
      | folder => rfl
      | file c => rw [Option.map_some, Node.patch, patch_middle_nil hnil]; rfl
  · rw [pieces_cons_of_ne hpath]

theorem coherent_insert (hnil : f.pending = []) (hwriters : s.writers = l ++ l') :
    Coherent { s with writers := l ++ f :: l' } ↔ Coherent s ∧ (∀ g ∈ s.writers, g.address ≠ f.address) ∧
      (∃ c, s.peer f.path = some (.file c)) ∧ f.Ahead s.tree := by
  have hmem : ∀ g, g ∈ l ++ f :: l' ↔ g = f ∨ g ∈ s.writers := by
    intro g
    rw [hwriters, perm_middle.mem_iff, mem_cons]
  have haddresses : ((l ++ f :: l').map OpenFile.address).Nodup ↔
      (∀ g ∈ s.writers, g.address ≠ f.address) ∧ (s.writers.map OpenFile.address).Nodup := by
    rw [map_append, map_cons, nodup_middle, ← map_append, ← hwriters, nodup_cons, mem_map]
    exact and_congr_left fun _ => ⟨fun h g hg hsame => h ⟨g, hg, hsame⟩, fun h ⟨g, hg, hsame⟩ => h g hg hsame⟩
  constructor
  · intro h
    refine ⟨⟨(haddresses.mp h.addresses).2, ?_, ?_, ?_, ?_⟩, (haddresses.mp h.addresses).1, ?_, ?_⟩
    · exact fun g hg => h.exist g ((hmem g).mpr (.inr hg))
    · rw [hwriters]
      exact (pairwise_apart.mp h.disjoint).2
    · intro path
      rw [hwriters, ← effective_nil hnil]
      exact h.tree path
    · exact fun g hg => h.ahead g ((hmem g).mpr (.inr hg))
    · exact h.exist f ((hmem f).mpr (.inl rfl))
    · exact h.ahead f ((hmem f).mpr (.inl rfl))
  · rintro ⟨h, hfresh, hfile, hahead⟩
    refine ⟨haddresses.mpr ⟨hfresh, h.addresses⟩, ?_, ?_, ?_, ?_⟩
    · intro g hg
      rcases (hmem g).mp hg with rfl | hg
      · exact hfile
      · exact h.exist g hg
    · exact pairwise_apart.mpr ⟨fun g _ _ => .inl hnil, hwriters ▸ h.disjoint⟩
    · intro path
      rw [effective_nil hnil, ← hwriters]
      exact h.tree path
    · intro g hg
      rcases (hmem g).mp hg with rfl | hg
      · exact hahead
      · exact h.ahead g hg

theorem Coherent.openFile (h : Coherent s) (hopen : s.openFile address path = some s') : Coherent s' := by
  rw [Mount.openFile] at hopen
  split_ifs at hopen with hany
  split at hopen
  · rename_i c hc
    cases hopen
    refine (coherent_insert rfl takeWhile_append_dropWhile.symm).mpr
      ⟨h, fun g hg hsame => hany ?_, ⟨c, hc⟩, .inl rfl⟩
    exact any_eq_true.mpr ⟨g, hg, decide_eq_true hsame⟩
  · cases hopen
  · cases hopen

theorem Coherent.put (h : Coherent s) (hnil : ∀ f ∈ s.writers, f.path = path → f.pending = [] ∧ f.readData = [])
    (c : Bytes) : Coherent { s with
      peer := update s.peer path (some (.file c)), tree := update s.tree path (some (.file c)) } := by
  refine ⟨h.addresses, ?_, h.disjoint, ?_, ?_⟩
  · exact fun f hf => exist_update (h.exist f hf)
  · intro q
    by_cases hq : q = path
    · subst hq
      rw [effective_of_flushed fun f hf hpath => (hnil f hf hpath).1]
      dsimp only
      rw [update_self, update_self]
    · rw [effective]
      dsimp only
      rw [update_of_ne hq, update_of_ne hq]
      exact h.tree q
  · intro f hf
    by_cases hpath : f.path = path
    · exact .inl (hnil f hf hpath).2
    · rw [OpenFile.Ahead]
      dsimp only
      rw [update_of_ne hpath]
      exact h.ahead f hf

theorem Coherent.create {exclusive : Bool} (h : Coherent s) (hcreate : s.create address path exclusive = some s') :
    Coherent s' := by
  obtain ⟨peer, hpeer, hopen⟩ := Option.bind_eq_some_iff.mp hcreate
  refine Coherent.openFile ?_ hopen
  have htree := h.tree path
  rw [Tree.create] at hpeer ⊢
  rw [effective] at htree
  split at hpeer
  · rename_i hnone
    cases hpeer
    rw [hnone] at htree
    rw [htree]
    refine h.put (fun f hf hpath => ?_) []
    obtain ⟨c, hc⟩ := h.exist f hf
    rw [hpath, hnone] at hc
    cases hc
  · rename_i c hc
    split_ifs at hpeer with hexclusive
    cases hpeer
    rw [hc] at htree
    rw [htree]
    simp only [Option.map_some, Node.patch, hexclusive]
    exact h
  · cases hpeer

theorem find_of_flush (h : s.flush address = some s') : ∃ f, s.find address = some f := by
  rw [Mount.flush] at h
  split at h
  · cases h
  · rename_i f hf
    exact ⟨f, hf⟩

theorem Coherent.release (h : Coherent s) (hrelease : s.release address = some s') : Coherent s' := by
  obtain ⟨t, hflush, hs'⟩ := Option.bind_eq_some_iff.mp hrelease
  obtain ⟨hcoherent, htree, hwriters⟩ := h.flush hflush
  obtain ⟨f, hfind⟩ := find_of_flush hflush
  have hfind' := (quiet_cleared htree hwriters).find hfind
  rw [if_pos (by simpa using find?_some hfind)] at hfind'
  obtain ⟨l, l', hsplit, haddress, hother⟩ := find_split hcoherent.addresses hfind'
  have hfilter : t.writers.filter (fun f => f.address ≠ address) = l ++ l' := by
    rw [forall_mem_append] at hother
    rw [hsplit, filter_append, filter_cons_of_neg (by simpa using haddress),
      filter_eq_self.mpr fun g hg => decide_eq_true (hother.1 g hg),
      filter_eq_self.mpr fun g hg => decide_eq_true (hother.2 g hg)]
  cases hs'
  rw [hfilter]
  refine ((coherent_insert (s := { t with writers := l ++ l' }) (f := Mount.clearPending f) rfl rfl).mp ?_).1
  rw [← hsplit]
  exact hcoherent

theorem Coherent.truncate {size : Nat} (h : Coherent s) (htruncate : s.truncate path size = some s') : Coherent s' := by
  obtain ⟨t, hflush, htruncate⟩ := Option.bind_eq_some_iff.mp htruncate
  obtain ⟨peer, hpeer, hs'⟩ := Option.bind_eq_some_iff.mp htruncate
  obtain ⟨hcoherent, htree, hwriters⟩ := h.flushAll hflush
  have hnil := pending_of_flushAll (fun g hg => decide_eq_true hg) hwriters
  have hsame := hcoherent.peer_eq hnil
  obtain ⟨c, hc, hpeer'⟩ := alter_eq_some hpeer
  have hc : t.peer path = some (.file c) := hc
  cases hs'
  have hput : (Tree.truncate t.tree path size).getD t.tree =
      update t.tree path (some (.file (c.take size ++ replicate (size - c.length) 0))) := by
    rw [Tree.truncate, Tree.alter, ← hsame, hc]
    rfl
  have hclear : Coherent (t.modify (fun f => f.path = path) Mount.clearReadData) := hcoherent.clearReadData
  dsimp only [Mount.modify] at hpeer' ⊢
  rw [hput, hpeer']
  refine hclear.put (fun f hf hpath => ⟨?_, readData_of_cleared hf hpath⟩) _
  obtain ⟨e, he, rfl⟩ := mem_map.mp hf
  split_ifs at hpath ⊢
  · exact hnil e he hpath
  · exact hnil e he hpath

end

section

variable {source target : Bytes} {t t' : Tree}

theorem rename_eq_some (h : t.rename source target = some t') :
    source = target ∧ t' = t ∨ source ≠ target ∧ below source target = false ∧ below target source = false ∧
      t' = t.moved source target ∧ ((∃ c, t target = some (.file c)) → ∃ c, t source = some (.file c)) := by
  rw [Tree.rename] at h
  split_ifs at h with hsame hsome hbelow
  · exact .inl ⟨hsame, (Option.some.inj h).symm⟩
  · rw [Bool.or_eq_true, not_or, Bool.not_eq_true, Bool.not_eq_true] at hbelow
    refine .inr ⟨hsame, hbelow.1, hbelow.2, ?_⟩
    split at h
    · cases h
    · cases h
    · cases h
    · rename_i c hsource _
      exact ⟨(Option.some.inj h).symm, fun _ => ⟨c, hsource⟩⟩
    · rename_i c _ hsource _
      exact ⟨(Option.some.inj h).symm, fun _ => ⟨c, hsource⟩⟩
    · rename_i htarget
      exact ⟨(Option.some.inj h).symm, fun ⟨c, hc⟩ => by rw [htarget] at hc; cases hc⟩
    · rename_i htarget
      exact ⟨(Option.some.inj h).symm, fun ⟨c, hc⟩ => by rw [htarget] at hc; cases hc⟩

theorem getD_rename {u : Tree} (hsource : u source = t source) (htarget : u target = t target)
    (h : t.rename source target = some t') :
    (u.rename source target).getD u = if source = target then u else u.moved source target := by
  rw [Tree.rename] at h ⊢
  rw [hsource, htarget]
  split_ifs at h ⊢
  · rfl
  · split at h
    · cases h
    · cases h
    · cases h
    · rfl
    · rfl
    · rfl
    · rfl

theorem moved_target : t.moved source target target = t source := if_pos rfl

theorem moved_of_ne (hne : path ≠ target) (htarget : below target path = false) (hsource : path ≠ source)
    (hbelow : below source path = false) : t.moved source target path = t path := by
  rw [Tree.moved, if_neg hne, htarget, if_neg Bool.false_ne_true, decide_eq_false hsource, hbelow]
  rfl

theorem below_source (h : below target path = true) : below source (source ++ path.drop target.length) = true := by
  obtain ⟨rest, rfl⟩ := isPrefixOf_iff_prefix.mp h
  rw [below, isPrefixOf_iff_prefix, append_assoc, drop_left]
  exact prefix_append_right_inj source |>.mpr (prefix_append [47] rest)

def moveTo (source target : Bytes) (f : OpenFile) : OpenFile := if f.path = source then { f with path := target } else f

theorem pieces_moveTo (hsource : path ≠ source) (htarget : path ≠ target) :
    pieces (l.map (moveTo source target)) path = pieces l path := by
  induction l with
  | nil => rfl
  | cons f l ih =>
    rw [map_cons]
    by_cases hf : f.path = source
    · have hold : f.path ≠ path := fun heq => hsource (heq.symm.trans hf)
      rw [moveTo, if_pos hf, pieces_cons_of_ne hold, pieces_cons_of_ne (f := { f with path := target }) htarget.symm, ih]
    · rw [moveTo, if_neg hf]
      by_cases hpath : f.path = path
      · rw [pieces_cons hpath, pieces_cons hpath, ih]
      · rw [pieces_cons_of_ne hpath, pieces_cons_of_ne hpath, ih]

theorem path_moveTo (source target : Bytes) (f : OpenFile) :
    (moveTo source target f).path = target ∧ (f.path = source ∨ f.path = target) ∨
      moveTo source target f = f ∧ f.path ≠ source ∧ f.path ≠ target := by
  by_cases hsource : f.path = source
  · rw [moveTo, if_pos hsource]
    exact .inl ⟨rfl, .inl hsource⟩
  · rw [moveTo, if_neg hsource]
    by_cases htarget : f.path = target
    · exact .inl ⟨htarget, .inr htarget⟩
    · exact .inr ⟨rfl, hsource, htarget⟩

theorem moveTo_fields : (moveTo source target f).address = f.address ∧ (moveTo source target f).piece = f.piece := by
  rw [moveTo]
  split_ifs
  · exact ⟨rfl, rfl⟩
  · exact ⟨rfl, rfl⟩

theorem mem_moveTo {g : OpenFile} (hg : g ∈ l.map (moveTo source target)) (hpath : g.path = path)
    (htarget : path ≠ target) : g ∈ l := by
  obtain ⟨f, hf, rfl⟩ := mem_map.mp hg
  rcases path_moveTo source target f with ⟨hmoved, -⟩ | ⟨hsame, -⟩
  · exact absurd (hpath.symm.trans hmoved) htarget
  · rw [hsame]
    exact hf

section

variable (h : Coherent s) (hnil : ∀ f ∈ s.writers, f.path = source ∨ f.path = target → f.pending = [])

include h hnil

theorem Coherent.tree_moved
    (hbelow : ∀ f ∈ s.writers, below source f.path = false ∧ below target f.path = false) (path : Bytes) :
    s.tree.moved source target path =
      effective (s.peer.moved source target) (s.writers.map (moveTo source target)) path := by
  by_cases htarget : path = target
  · subst htarget
    rw [effective_of_flushed, moved_target, moved_target]
    · exact (h.peer_eq fun f hf hpath => hnil f hf (.inl hpath)).symm
    · intro g hg hpath
      obtain ⟨f, hf, rfl⟩ := mem_map.mp hg
      rw [show (moveTo source path f).pending = f.pending from congrArg Prod.snd moveTo_fields.2]
      rcases path_moveTo source path f with ⟨-, hold⟩ | ⟨hsame, -, hne⟩
      · exact hnil f hf hold
      · exact absurd (hsame ▸ hpath) hne
  by_cases hunder : below target path = true
  · rw [effective_of_flushed, Tree.moved, Tree.moved, if_neg htarget, if_neg htarget, if_pos hunder, if_pos hunder]
    · refine (h.peer_eq fun f hf hpath => ?_).symm
      have hsource := (hbelow f hf).1
      rw [hpath, below_source hunder] at hsource
      cases hsource
    · intro g hg hpath
      have hfree := (hbelow g (mem_moveTo hg hpath htarget)).2
      rw [hpath, hunder] at hfree
      cases hfree
  rw [Bool.not_eq_true] at hunder
  by_cases hgone : (path = source || below source path) = true
  · rw [effective, Tree.moved, Tree.moved, if_neg htarget, if_neg htarget, hunder, if_neg Bool.false_ne_true,
      if_neg Bool.false_ne_true, if_pos hgone, if_pos hgone]
    rfl
  · rw [Bool.or_eq_true, not_or, decide_eq_true_eq, Bool.not_eq_true] at hgone
    rw [effective, moved_of_ne htarget hunder hgone.1 hgone.2, moved_of_ne htarget hunder hgone.1 hgone.2,
      pieces_moveTo hgone.1 htarget]
    exact h.tree path

theorem Coherent.moved (hread : ∀ f ∈ s.writers, f.path = target → f.readData = [])
    (hbelow : ∀ f ∈ s.writers, below source f.path = false ∧ below target f.path = false)
    (hkind : (∃ c, s.peer target = some (.file c)) → ∃ c, s.peer source = some (.file c)) :
    Coherent ⟨s.peer.moved source target, s.writers.map (moveTo source target), s.tree.moved source target⟩ := by
  have hkeep : ∀ (t : Tree) (f), f ∈ s.writers → f.path ≠ source → f.path ≠ target →
      t.moved source target f.path = t f.path := by
    intro t f hf hsource htarget
    exact moved_of_ne htarget (hbelow f hf).2 hsource (hbelow f hf).1
  constructor
  · have hsame : OpenFile.address ∘ moveTo source target = OpenFile.address := funext fun f => moveTo_fields.1
    rw [map_map, hsame]
    exact h.addresses
  · intro g hg
    obtain ⟨f, hf, rfl⟩ := mem_map.mp hg
    have hfile := h.exist f hf
    dsimp only
    rcases path_moveTo source target f with ⟨hpath, hold⟩ | ⟨hsame, hsource, htarget⟩
    · rw [hpath, moved_target]
      rcases hold with hold | hold
      · exact hold ▸ hfile
      · exact hkind (hold ▸ hfile)
    · rw [hsame, hkeep _ f hf hsource htarget]
      exact hfile
  · rw [pairwise_map]
    refine Pairwise.imp_of_mem ?_ h.disjoint
    intro f g hf hg hfg hpath
    rw [moveTo_fields.2, moveTo_fields.2]
    rcases path_moveTo source target f with ⟨-, hold⟩ | ⟨hsame, -⟩
    · exact .inl (hnil f hf hold)
    · rcases path_moveTo source target g with ⟨-, hold⟩ | ⟨hsame', -⟩
      · exact .inr (.inl (hnil g hg hold))
      · rw [hsame, hsame'] at hpath
        exact hfg hpath
  · exact fun path => h.tree_moved hnil hbelow path
  · intro g hg
    obtain ⟨f, hf, rfl⟩ := mem_map.mp hg
    have hahead := h.ahead f hf
    by_cases hsource : f.path = source
    · rw [moveTo, if_pos hsource, OpenFile.Ahead]
      dsimp only
      rw [moved_target, ← hsource]
      exact hahead
    · rw [moveTo, if_neg hsource]
      by_cases htarget : f.path = target
      · exact .inl (hread f hf htarget)
      · rw [OpenFile.Ahead]
        dsimp only
        rw [hkeep _ f hf hsource htarget]
        exact hahead

end

theorem Coherent.rename (h : Coherent s)
    (hread : source ≠ target → ∀ f ∈ s.writers, f.path = target → f.readData = [])
    (hbelow : source ≠ target → ∀ f ∈ s.writers, below source f.path = false ∧ below target f.path = false)
    (hrename : s.rename source target = some s') : Coherent s' := by
  rw [Mount.rename] at hrename
  split_ifs at hrename
  · obtain ⟨t, hflush, hrename⟩ := Option.bind_eq_some_iff.mp hrename
    obtain ⟨peer, hpeer, hs'⟩ := Option.bind_eq_some_iff.mp hrename
    obtain ⟨hcoherent, htree, hwriters⟩ := h.flushAll hflush
    have hsource : ∀ f ∈ t.writers, f.path = source → f.pending = [] :=
      pending_of_flushAll (fun g hg => by rw [decide_eq_true hg]; rfl) hwriters
    have htarget : ∀ f ∈ t.writers, f.path = target → f.pending = [] :=
      pending_of_flushAll (fun g hg => by rw [decide_eq_true hg, Bool.or_true]) hwriters
    have hmove := getD_rename (hcoherent.peer_eq hsource).symm (hcoherent.peer_eq htarget).symm hpeer
    have hfiles : ∀ g ∈ t.writers, ∃ f ∈ s.writers, g.path = f.path ∧ g.readData = f.readData := by
      intro g hg
      rw [hwriters] at hg
      obtain ⟨f, hf, rfl⟩ := mem_map.mp hg
      refine ⟨f, hf, ?_⟩
      split_ifs
      · exact ⟨rfl, rfl⟩
      · exact ⟨rfl, rfl⟩
    have hs' := Option.some.inj hs'
    have hmodify : s' = ⟨peer, t.writers.map (moveTo source target), (t.tree.rename source target).getD t.tree⟩ := by
      refine hs'.symm.trans (congrArg (Mount.mk peer · _) (map_congr_left fun f _ => ?_))
      simp only [moveTo, decide_eq_true_eq]
    rw [hmodify, hmove]
    rcases rename_eq_some hpeer with ⟨hsame, rfl⟩ | ⟨hne, -, -, rfl, hkind⟩
    · have hid : t.writers.map (moveTo source target) = t.writers := by
        have hsame : ∀ f ∈ t.writers, moveTo source target f = f := by
          intro f _
          rw [moveTo]
          split_ifs with hpath
          · rw [← hsame, ← hpath]
          · rfl
        exact (map_congr_left hsame).trans (map_id _)
      rw [hid, if_pos hsame]
      exact hcoherent
    · rw [if_neg hne]
      refine hcoherent.moved ?_ ?_ ?_ hkind
      · intro f hf hpath
        rcases hpath with hpath | hpath
        · exact hsource f hf hpath
        · exact htarget f hf hpath
      · intro g hg hpath
        obtain ⟨f, hf, hsame, hdata⟩ := hfiles g hg
        exact hdata.trans (hread hne f hf (hsame.symm.trans hpath))
      · intro g hg
        obtain ⟨f, hf, hsame, -⟩ := hfiles g hg
        rw [hsame]
        exact hbelow hne f hf
  · cases hrename
    exact h

end

/-- A write is not for bytes that are pending in another open file of the same path. What is renamed or replaced has no
open files below it, and nothing has been read ahead from a file that is replaced. -/
def Ordered (s : Mount) : FileCall → Prop
  | .write address data offset _ => ∀ f ∈ s.writers, f.address = address → Free s address f.path (offset, data)
  | .rename source target => source ≠ target → ∀ f ∈ s.writers,
      (f.path = target → f.readData = []) ∧ below source f.path = false ∧ below target f.path = false
  | .create _ _ _ | .open _ _ | .read _ _ _ | .truncate _ _ | .getattr _ | .close _ | .release _ => True

instance (s : Mount) (address : Nat) (path : Bytes) (w : Piece) : Decidable (Free s address path w) :=
  inferInstanceAs (Decidable (∀ g ∈ s.writers, _ → _ → _))

instance (s : Mount) : (l : FileCall) → Decidable (Ordered s l)
  | .write _ _ _ _ => inferInstanceAs (Decidable (∀ f ∈ s.writers, _ → _))
  | .rename _ _ => inferInstanceAs (Decidable (_ → ∀ f ∈ s.writers, _))
  | .create _ _ _ | .open _ _ | .read _ _ _ | .truncate _ _ | .getattr _ | .close _ | .release _ =>
    inferInstanceAs (Decidable True)

theorem Coherent.step {l : FileCall} (h : Coherent s) (hordered : Ordered s l) (hstep : s.step l = some s') :
    Coherent s' := by
  cases l with
  | create address path exclusive => exact h.create hstep
  | «open» address path => exact h.openFile hstep
  | read address size offset =>
    obtain ⟨⟨data, t⟩, hread, rfl⟩ := Option.map_eq_some_iff.mp hstep
    exact (h.read hread).1
  | write address data offset grown => exact h.write hordered hstep
  | truncate path size => exact h.truncate hstep
  | rename source target =>
    exact h.rename (fun hne f hf => (hordered hne f hf).1) (fun hne f hf => (hordered hne f hf).2) hstep
  | getattr path =>
    obtain ⟨_, -, rfl⟩ := Option.map_eq_some_iff.mp hstep
    exact h
  | close address => exact (h.flush hstep).1
  | release address => exact h.release hstep

theorem coherent_init (t : Tree) : Coherent { peer := t, tree := t } :=
  ⟨nodup_nil, nofun, Pairwise.nil, fun _ => (effective_of_flushed fun _ hf => absurd hf not_mem_nil).symm, nofun⟩

/-- In every ordered run a read gives the bytes of the file as the calls before it have left it, at least one unless it
starts at the end, `getattr` gives the size of that file, and a file that nobody has open is the same at the peer. -/
theorem storage_coherent {t : Tree} {s : Mount} (h : Reaches Mount.step Ordered { peer := t, tree := t } s) :
    (∀ address size offset data s', s.read address size offset = some (data, s') →
      ∃ f c, s.find address = some f ∧ s.tree f.path = some (.file c) ∧ data <+: c.slice offset size ∧
        (data = [] → c.slice offset size = [])) ∧ (∀ path, s.attributes path = s.tree.stat path) ∧
    ∀ path, (∀ f ∈ s.writers, f.path ≠ path) → s.peer path = s.tree path := by
  have hcoherent : Coherent s :=
    h.invariant (I := Coherent) (coherent_init t) fun _ _ _ hs hordered hstep => hs.step hordered hstep
  refine ⟨?_, fun path => hcoherent.attributes, ?_⟩
  · exact fun address size offset data s' hread => (hcoherent.read hread).2
  · exact fun path hclosed => hcoherent.peer_eq fun f hf hpath => absurd hpath (hclosed f hf)

/-- Two open files of one path, which is renamed in between. -/
theorem storage_coherent_shared : ∃ s, Reaches Mount.step Ordered { peer := fun _ => none, tree := fun _ => none } s ∧
      s.tree [47, 98] = some (.file [1, 7, 0, 0]) ∧ s.attributes [47, 98] = s.tree.stat [47, 98] ∧
      s.peer [47, 98] = s.tree [47, 98] := by
  have hrun : Reaches Mount.step Ordered { peer := fun _ => none, tree := fun _ => none } _ := Reaches.refl
    |>.step (a := .create 1 [47, 97] true) trivial rfl
    |>.step (a := .write 1 [1, 2] 0 0) (by decide) rfl
    |>.step (a := .open 2 [47, 97]) trivial rfl
    |>.step (a := .write 2 [3] 5 0) (by decide) rfl
    |>.step (a := .read 1 10 0) trivial rfl
    |>.step (a := .truncate [47, 97] 4) trivial rfl
    |>.step (a := .rename [47, 97] [47, 98]) (by decide) rfl
    |>.step (a := .write 2 [7] 1 0) (by decide) rfl
    |>.step (a := .release 1) trivial rfl
    |>.step (a := .release 2) trivial rfl
  obtain ⟨-, hsize, hpeer⟩ := storage_coherent hrun
  exact ⟨_, hrun, rfl, hsize [47, 98], hpeer [47, 98] nofun⟩

/-- The open file with the higher address writes first, and both files are released. -/
def overlapCalls : List FileCall :=
  [.create 1 [47, 97] true, .open 2 [47, 97], .write 2 [1] 0 0, .write 1 [2] 0 0, .release 1, .release 2]

def folderTree : Tree := update (fun _ => none) [47, 100] (some .folder)

def folderCalls : List FileCall := [.create 1 [47, 100, 47, 97] true, .write 1 [1] 0 0, .rename [47, 100] [47, 101]]

/-- The older of two writes may end up in the file, and `getattr` may miss what is pending. -/
theorem storage_incoherent : (¬ ∀ t s, Reaches Mount.step (fun _ _ => True) { peer := t, tree := t } s →
      ∀ path, (∀ f ∈ s.writers, f.path ≠ path) → s.peer path = s.tree path) ∧
    ¬ ∀ t s, Reaches Mount.step (fun _ _ => True) { peer := t, tree := t } s →
      ∀ path, s.attributes path = s.tree.stat path := by
  constructor
  · intro h
    have hrun : overlapCalls.foldlM Mount.step { peer := fun _ => none, tree := fun _ => none } = some _ := rfl
    have hsame := h _ _ (reaches_of_foldlM hrun) [47, 97] nofun
    have hpeer : some (Node.file [1]) = some (Node.file [2]) := hsame
    simp at hpeer
  · intro h
    have hrun : folderCalls.foldlM Mount.step { peer := folderTree, tree := folderTree } = some _ := rfl
    have hsize := h _ _ (reaches_of_foldlM hrun) [47, 101, 47, 97]
    have hsize : some 0 = some 1 := hsize
    simp at hsize

end AeraRecovery.PcStorage
