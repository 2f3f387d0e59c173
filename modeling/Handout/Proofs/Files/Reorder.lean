import Mathlib.Data.List.Nodup
import Handout.Proofs.Files.Look

/-!
# The order of entries

A directory lists its entries in the order in which they are stored.  `Files.Reordered` relates files that are the same
but for this order; each directory may have an order of its own (`Files.exists_reordered`).  Paths lead to the same
whatever the order is, as only `Files.get?` is asked on the way, and so all questions about a path have the same answer
(`Session.Reordered`), apart from the names in a directory, which are permuted (`Session.Reordered.names?`).
-/

namespace Handout

namespace Files

variable {f g : Files} {loc x d : Location} {node : Node}

/-- The same is stored, each entry once, though perhaps in another order. -/
structure Reordered (f g : Files) : Prop where
  entries : f.entries.Perm g.entries
  nodup : (f.entries.map Prod.fst).Nodup

theorem Reordered.symm (h : f.Reordered g) : g.Reordered f :=
  ⟨h.entries.symm, (h.entries.map _).nodup_iff.1 h.nodup⟩

theorem Reordered.trans {k : Files} (h : f.Reordered g) (h' : g.Reordered k) : f.Reordered k :=
  ⟨h.entries.trans h'.entries, h.nodup⟩

private theorem lookup_eq_some_iff_mem {l : List (Location × Node)} (h : (l.map Prod.fst).Nodup) :
    l.lookup x = some node ↔ (x, node) ∈ l := by
  rw [List.lookup_eq_some_iff]
  constructor
  · rintro ⟨before, after, rfl, -⟩
    simp
  · intro hmem
    obtain ⟨before, after, rfl⟩ := List.append_of_mem hmem
    refine ⟨before, after, rfl, fun e he => bne_iff_ne.2 ?_⟩
    rintro rfl
    rw [List.map_append, List.map_cons] at h
    exact (List.nodup_append.1 h).2.2 _ (List.mem_map_of_mem he) _ List.mem_cons_self rfl

theorem Reordered.get?_eq (h : f.Reordered g) : f.get? = g.get? := by
  funext x
  unfold get?
  split
  · rfl
  · refine Option.ext fun node => ?_
    rw [lookup_eq_some_iff_mem h.nodup, lookup_eq_some_iff_mem h.symm.nodup, h.entries.mem_iff]

/-- A directory has the same names. -/
theorem Reordered.names (h : f.Reordered g) (d : Location) : (f.names d).Perm (g.names d) := by
  refine (List.perm_ext_iff_of_nodup nodup_names nodup_names).2 fun c => ?_
  rw [mem_names, mem_names, h.get?_eq]

theorem Reordered.height (h : f.Reordered g) : f.height = g.height :=
  h.entries.foldl_eq' (fun _ _ _ _ _ => by omega) 0

theorem Reordered.links (h : f.Reordered g) : f.links = g.links := (h.entries.filter _).length_eq

theorem Reordered.length (h : f.Reordered g) : f.entries.length = g.entries.length := h.entries.length_eq

/-! ### Orders of one's own -/

/-- The place of an entry in the order of its directory. -/
private def rank (order : Location → List String) (e : Location × Node) : Nat :=
  (order e.1.dropLast).idxOf (e.1.getLast?.getD "")

private theorem pairwise_eraseDups {R : String → String → Prop} (l : List String) (h : l.Pairwise R) :
    l.eraseDups.Pairwise R := by
  match l with
  | [] => exact List.Pairwise.nil
  | a :: l =>
    obtain ⟨ha, hl⟩ := List.pairwise_cons.1 h
    rw [List.eraseDups_cons, List.pairwise_cons]
    refine ⟨fun b hb => ha b ?_, pairwise_eraseDups _ (hl.filter _)⟩
    exact (List.mem_filter.1 (List.mem_eraseDups.1 hb)).1
  termination_by l.length
  decreasing_by
    have := List.length_filter_le (fun b => !b == a) l
    simp only [List.length_cons]
    omega

private theorem pairwise_idxOf {l : List String} (h : l.Nodup) : l.Pairwise fun a b => l.idxOf a ≤ l.idxOf b := by
  refine List.pairwise_iff_getElem.2 fun i j hi hj hij => ?_
  rw [h.idxOf_getElem i hi, h.idxOf_getElem j hj]
  exact Nat.le_of_lt hij

/-- In each directory, the entries may be listed in any order. -/
theorem exists_reordered (hf : (f.entries.map Prod.fst).Nodup) (order : Location → List String)
    (horder : ∀ d, (order d).Perm (f.names d)) : ∃ g, f.Reordered g ∧ ∀ d, g.names d = order d := by
  let le : Location × Node → Location × Node → Bool := fun a b => decide (rank order a ≤ rank order b)
  let g : Files := ⟨sortBy le f.entries⟩
  have hg : f.Reordered g := ⟨(sortBy_perm le f.entries).symm, hf⟩
  refine ⟨g, hg, fun d => ?_⟩
  have hnodup : (order d).Nodup := (horder d).nodup_iff.2 nodup_names
  have hperm : (g.names d).Perm (order d) := (hg.names d).symm.trans (horder d).symm
  have hsorted : g.entries.Pairwise fun a b => rank order a ≤ rank order b := by
    refine (sortBy_pairwise (fun a b c hab hbc => ?_) (fun a b => ?_) f.entries).imp of_decide_eq_true
    · exact decide_eq_true (Nat.le_trans (of_decide_eq_true hab) (of_decide_eq_true hbc))
    · exact (Nat.le_total _ _).imp decide_eq_true decide_eq_true
  have hnames : (g.names d).Pairwise fun a b => (order d).idxOf a ≤ (order d).idxOf b := by
    refine pairwise_eraseDups _ (List.pairwise_filterMap.2 (hsorted.imp fun {e e'} hle c hc c' hc' => ?_))
    have hrank : ∀ {e : Location × Node} {c : String}, nameIn? d e.1 = some c → rank order e = (order d).idxOf c := by
      intro e c hc
      unfold rank
      rw [nameIn?_eq_some.1 hc, List.dropLast_concat, List.getLast?_concat]
      rfl
    rwa [hrank hc, hrank hc'] at hle
  refine hperm.eq_of_pairwise (fun a b ha _ hab hba => ?_) hnames (pairwise_idxOf hnodup)
  exact (List.idxOf_inj (hperm.mem_iff.1 ha)).1 (Nat.le_antisymm hab hba)

/-! ### Changes -/

theorem Reordered.filter (h : f.Reordered g) (keep : Location × Node → Bool) :
    Reordered ⟨f.entries.filter keep⟩ ⟨g.entries.filter keep⟩ :=
  ⟨h.entries.filter keep, h.nodup.sublist (List.filter_sublist.map _)⟩

theorem Reordered.erase (h : f.Reordered g) (loc : Location) : (f.erase loc).Reordered (g.erase loc) := h.filter _

/-- Storing a node replaces the one that was there. -/
private theorem putEntry_perm {l : List (Location × Node)} (h : (l.map Prod.fst).Nodup) :
    (putEntry loc node l).Perm ((loc, node) :: l.filter fun e => e.1 != loc) := by
  induction l with
  | nil => exact List.Perm.refl _
  | cons e l ih =>
    rw [List.map_cons, List.nodup_cons] at h
    unfold putEntry
    by_cases he : e.1 = loc
    · have hrest : l.filter (fun e => e.1 != loc) = l :=
        List.filter_eq_self.2 fun e' he' => bne_iff_ne.2 fun hl => h.1 (he.trans hl.symm ▸ List.mem_map_of_mem he')
      rw [if_pos he, List.filter_cons_of_neg (by simpa using he), hrest]
    · rw [if_neg he, List.filter_cons_of_pos (by simpa using he)]
      exact ((ih h.2).cons e).trans (List.Perm.swap _ _ _)

theorem Reordered.put (h : f.Reordered g) (loc : Location) (node : Node) : (f.put loc node).Reordered (g.put loc node) := by
  have hkept := h.filter fun e => e.1 != loc
  have hf : (f.put loc node).entries.Perm _ := putEntry_perm h.nodup
  refine ⟨hf.trans ((hkept.entries.cons _).trans (putEntry_perm h.symm.nodup).symm), ?_⟩
  rw [(hf.map _).nodup_iff, List.map_cons, List.nodup_cons]
  refine ⟨fun hmem => ?_, hkept.nodup⟩
  obtain ⟨e, he, hloc⟩ := List.mem_map.1 hmem
  exact bne_iff_ne.1 (List.mem_filter.1 he).2 hloc

/-! ### Following paths -/

private theorem walkWith_congr (h : f.get? = g.get?) (follow : Bool)
    (again : Location → List String → Except SystemCode Place) (dir : Location) (pieces : List String) :
    walkWith f follow again dir pieces = walkWith g follow again dir pieces := by
  induction pieces generalizing dir with
  | nil => rfl
  | cons c rest ih => simp only [walkWith, h, ih]

theorem walk_eq_of_get? (h : f.get? = g.get?) (follow : Bool) (n : Nat) : f.walk follow n = g.walk follow n := by
  induction n with
  | zero =>
    funext dir pieces
    exact walkWith_congr h follow _ dir pieces
  | succ n ih =>
    funext dir pieces
    rw [walk, walk, ih]
    exact walkWith_congr h follow _ dir pieces

private theorem canonicalWith_congr (h : f.get? = g.get?) (pending : List Location)
    (deeper : Option (List Location → Location → List String → Location × Bool)) (dir : Location)
    (pieces : List String) :
    canonicalWith f pending deeper dir pieces = canonicalWith g pending deeper dir pieces := by
  induction pieces generalizing dir with
  | nil => rfl
  | cons c rest ih => cases deeper <;> simp only [canonicalWith, h, ih]

theorem canonical_eq_of_get? (h : f.get? = g.get?) (depth : Nat) : f.canonical depth = g.canonical depth := by
  induction depth with
  | zero =>
    funext pending dir pieces
    exact canonicalWith_congr h pending none dir pieces
  | succ depth ih =>
    funext pending dir pieces
    rw [canonical, canonical, ih]
    exact canonicalWith_congr h pending _ dir pieces

end Files

/-! ### Sessions -/

namespace Session

variable {s t u : Session} {p : Path} {w : WrittenPath} {follow : Bool}

/-- Two sessions that differ in the order of entries at most, apart from the log. -/
structure Reordered (s t : Session) : Prop where
  files : s.files.Reordered t.files
  only : t = { s with files := t.files, log := t.log }

namespace Reordered

/-- A session that has an order has it. -/
theorem self (h : s.Reordered t) : s.Reordered s := ⟨⟨List.Perm.refl _, h.files.nodup⟩, rfl⟩

theorem symm (h : s.Reordered t) : t.Reordered s := ⟨h.files.symm, by rw [h.only]⟩

theorem trans (h : s.Reordered t) (h' : t.Reordered u) : s.Reordered u :=
  ⟨h.files.trans h'.files, by rw [h'.only, h.only]⟩

theorem workingDir (h : s.Reordered t) : t.workingDir = s.workingDir := by rw [h.only]

theorem locked (h : s.Reordered t) : t.locked = s.locked := by rw [h.only]

theorem loaded (h : s.Reordered t) : t.loaded = s.loaded := by rw [h.only]

/-- The same change of the files. -/
theorem edit (h : s.Reordered t) {change : Files → Files} (hchange : (change s.files).Reordered (change t.files)) :
    Reordered { s with files := change s.files } { t with files := change t.files } :=
  ⟨hchange, congrArg (fun u : Session => { u with files := change t.files }) h.only⟩

theorem log (h : s.Reordered t) (first second : List LogRecord) :
    Reordered { s with log := first } { t with log := second } :=
  ⟨h.files, congrArg (fun u : Session => { u with log := second }) h.only⟩

theorem load (h : s.Reordered t) (loaded : List (Nat × Config)) :
    Reordered { s with loaded := loaded } { t with loaded := loaded } :=
  ⟨h.files, congrArg (fun u : Session => { u with loaded := loaded }) h.only⟩

theorem find (h : s.Reordered t) : s.find = t.find := by
  funext follow p
  unfold Session.find
  rw [h.workingDir, Files.walk_eq_of_get? h.files.get?_eq]

theorem node? (h : s.Reordered t) : s.node? = t.node? := by
  funext follow p
  unfold Session.node?
  rw [h.find]

theorem look (h : s.Reordered t) : s.look = t.look := by
  funext follow p
  unfold Session.look
  rw [h.find]

theorem isFile? (h : s.Reordered t) : s.isFile? = t.isFile? := by
  funext p
  unfold Session.isFile?
  rw [h.look, h.locked]

theorem content? (h : s.Reordered t) : s.content? = t.content? := by
  funext w
  unfold Session.content?
  rw [h.find]

theorem resolve? (h : s.Reordered t) : s.resolve? = t.resolve? := by
  funext p
  unfold Session.resolve?
  rw [h.find, h.workingDir, h.files.links, Files.canonical_eq_of_get? h.files.get?_eq]

/-- The names in a directory are permuted, or the question for them fails alike. -/
theorem names? (h : s.Reordered t) (w : WrittenPath) :
    (∃ l l', s.names? w = .ok l ∧ t.names? w = .ok l' ∧ l.Perm l') ∨
      ∃ e, s.names? w = .error e ∧ t.names? w = .error e := by
  unfold Session.names?
  rw [h.find, h.locked]
  split
  · exact .inr ⟨_, rfl, rfl⟩
  · split
    · exact .inr ⟨_, rfl, rfl⟩
    · split
      · exact .inr ⟨_, rfl, rfl⟩
      · exact .inr ⟨_, rfl, rfl⟩
      · exact .inl ⟨_, _, rfl, rfl, h.files.names _⟩
      · exact .inr ⟨_, rfl, rfl⟩

end Reordered

end Session

end Handout
