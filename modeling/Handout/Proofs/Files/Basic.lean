import Mathlib.Data.List.Induction
import Mathlib.Data.List.Perm.Subperm
import Handout.Files.Walk

/-!
# What is stored after a change

The stored files are known by `Files.get?`; so every change is described by what `get?` gives afterwards (`get?_put`,
`get?_eraseTree`), and the names in a directory by where something is stored (`mem_names`).  A file system is
well-formed (`Files.WellFormed`) when whatever is stored lies in a directory under a proper name; this is kept by
storing a node that is no directory's loss (`WellFormed.put`).
-/

namespace Handout

theorem nodup_eraseDups {α : Type} [BEq α] [LawfulBEq α] (l : List α) : l.eraseDups.Nodup := by
  match l with
  | [] => simp
  | a :: l =>
    rw [List.eraseDups_cons, List.nodup_cons]
    refine ⟨?_, nodup_eraseDups _⟩
    rw [List.mem_eraseDups, List.mem_filter]
    simp
  termination_by l.length
  decreasing_by
    have := List.length_filter_le (fun b => !b == a) l
    simp only [List.length_cons]
    omega

/-- Names are not followed by themselves and one more. -/
theorem not_concat_prefix_self (names : List String) (c : String) : ¬ names ++ [c] <+: names := by
  intro h
  have hlength := h.length_le
  rw [List.length_append, List.length_singleton] at hlength
  omega

theorem not_prefix_dropLast {names : List String} (hne : names ≠ []) : ¬ names <+: names.dropLast := by
  intro h
  obtain ⟨init, c, rfl⟩ := (List.eq_nil_or_concat' names).resolve_left hne
  rw [List.dropLast_concat] at h
  exact not_concat_prefix_self init c h

/-- A name that leads somewhere of its own. -/
def IsPlain (c : String) : Prop := Files.isStay c = false ∧ c ≠ ".."

instance (c : String) : Decidable (IsPlain c) := inferInstanceAs (Decidable (_ ∧ _))

/-- A name as a piece of a path. -/
structure IsName (c : String) : Prop where
  plain : IsPlain c
  noSlash : '/' ∉ c.toList

/-- A name under which something can be stored. -/
structure IsProper (c : String) : Prop extends IsName c where
  short : c.utf8ByteSize ≤ maxName
  noZero : Char.ofNat 0 ∉ c.toList

instance (c : String) : Decidable (IsProper c) :=
  decidable_of_iff (IsPlain c ∧ '/' ∉ c.toList ∧ c.utf8ByteSize ≤ maxName ∧ Char.ofNat 0 ∉ c.toList)
    ⟨fun h => ⟨⟨h.1, h.2.1⟩, h.2.2.1, h.2.2.2⟩, fun h => ⟨h.plain, h.noSlash, h.short, h.noZero⟩⟩

theorem plain_of_isName {names : List String} (h : ∀ c ∈ names, IsName c) : ∀ c ∈ names, IsPlain c :=
  fun c hc => (h c hc).plain

/-- Whether a node is a link. -/
def Node.isLink : Node → Bool
  | .link _ => true
  | _ => false

namespace Files

variable {f g : Files} {loc x dir : Location} {node : Node}

/-! ### Looking things up -/

@[simp] theorem get?_nil (f : Files) : f.get? [] = some .directory := rfl

private theorem lookup_putEntry (loc x : Location) (node : Node) (l : List (Location × Node)) :
    (putEntry loc node l).lookup x = if x = loc then some node else l.lookup x := by
  induction l with
  | nil =>
    by_cases hx : x = loc
    · simp [putEntry, hx]
    · have : (x == loc) = false := beq_eq_false_iff_ne.2 hx
      simp [putEntry, List.lookup_cons, hx, this]
  | cons e l ih =>
    obtain ⟨key, stored⟩ := e
    rw [List.lookup_cons]
    unfold putEntry
    by_cases hk : key = loc
    · subst hk
      rw [if_pos rfl, List.lookup_cons]
      by_cases hx : x = key
      · simp [hx]
      · have h : (x == key) = false := beq_eq_false_iff_ne.2 hx
        simp [hx, h]
    · rw [if_neg hk, List.lookup_cons, ih]
      by_cases hx : x = key
      · simp [hx, hk]
      · have h : (x == key) = false := beq_eq_false_iff_ne.2 hx
        simp [h]

theorem get?_put (h : loc ≠ []) : (f.put loc node).get? x = if x = loc then some node else f.get? x := by
  unfold get? put
  by_cases hx : x = []
  · have hl : ¬ x = loc := fun e => h (e.symm.trans hx)
    rw [if_pos hx, if_pos hx, if_neg hl]
  · rw [if_neg hx, if_neg hx, lookup_putEntry]

theorem get?_put_self (h : loc ≠ []) : (f.put loc node).get? loc = some node := by
  rw [get?_put h, if_pos rfl]

theorem get?_put_of_ne (h : loc ≠ []) (hx : x ≠ loc) : (f.put loc node).get? x = f.get? x := by
  rw [get?_put h, if_neg hx]

private theorem lookup_filter (l : List (Location × Node)) (keep : Location → Bool) (x : Location) :
    (l.filter fun e => keep e.1).lookup x = if keep x then l.lookup x else none := by
  induction l with
  | nil => simp
  | cons e l ih =>
    obtain ⟨key, stored⟩ := e
    rw [List.filter_cons, List.lookup_cons]
    by_cases hx : x = key
    · subst hx
      by_cases hk : keep x
      · simp [hk]
      · rw [if_neg hk, ih, if_neg hk, if_neg hk]
    · have h : (x == key) = false := beq_eq_false_iff_ne.2 hx
      split
      · rw [List.lookup_cons, ih]
        simp [h]
      · rw [ih]
        simp [h]

theorem get?_erase (h : loc ≠ []) : (f.erase loc).get? x = if x = loc then none else f.get? x := by
  unfold get? erase
  by_cases hx : x = []
  · rw [if_pos hx, if_neg (by rw [hx]; exact h.symm), if_pos hx]
  · rw [if_neg hx, if_neg hx, lookup_filter _ (fun l => l != loc)]
    by_cases he : x = loc
    · rw [if_pos he, if_neg (by simp [he])]
    · rw [if_neg he, if_pos (by simpa using he)]

/-- What is stored last counts. -/
theorem put_put (first second : Node) : (f.put loc first).put loc second = f.put loc second := by
  have h : ∀ l : List (Location × Node), putEntry loc second (putEntry loc first l) = putEntry loc second l := by
    intro l
    induction l with
    | nil => simp [putEntry]
    | cons e l ih =>
      by_cases hk : e.1 = loc
      · simp [putEntry, hk]
      · simp [putEntry, hk, ih]
  exact congrArg Files.mk (h f.entries)

/-- What is stored where there was nothing can be taken away again. -/
theorem erase_put (hne : loc ≠ []) (h : f.get? loc = none) : (f.put loc node).erase loc = f := by
  unfold get? at h
  rw [if_neg hne] at h
  have hentries : ∀ l : List (Location × Node), l.lookup loc = none →
      (putEntry loc node l).filter (fun e => e.1 != loc) = l := by
    intro l hl
    induction l with
    | nil => simp [putEntry]
    | cons e l ih =>
      obtain ⟨key, stored⟩ := e
      rw [List.lookup_cons] at hl
      split at hl
      · cases hl
      · rename_i hk
        have hkey : key ≠ loc := fun he => beq_eq_false_iff_ne.1 hk he.symm
        rw [putEntry, if_neg hkey, List.filter_cons, if_pos (by simpa using hkey), ih hl]
  exact congrArg Files.mk (hentries f.entries h)

theorem get?_eraseTree (h : loc ≠ []) : (f.eraseTree loc).get? x = if loc <+: x then none else f.get? x := by
  unfold get? eraseTree
  by_cases hx : x = []
  · have hp : ¬ loc <+: x := fun hp => h (List.prefix_nil.1 (hx ▸ hp))
    rw [if_pos hx, if_neg hp, if_pos hx]
  · rw [if_neg hx, if_neg hx, lookup_filter _ (fun l => !loc.isPrefixOf l)]
    by_cases hp : loc <+: x
    · have hb : loc.isPrefixOf x = true := List.isPrefixOf_iff_prefix.2 hp
      rw [if_pos hp, hb]
      rfl
    · have hb : loc.isPrefixOf x = false := Bool.eq_false_iff.2 fun hb => hp (List.isPrefixOf_iff_prefix.1 hb)
      rw [if_neg hp, hb]
      rfl

theorem get?_eraseTree_of_below (h : loc ≠ []) (hx : loc <+: x) : (f.eraseTree loc).get? x = none := by
  rw [get?_eraseTree h, if_pos hx]

theorem get?_eraseTree_of_not_below (h : loc ≠ []) (hx : ¬ loc <+: x) : (f.eraseTree loc).get? x = f.get? x := by
  rw [get?_eraseTree h, if_neg hx]

theorem get?_eq_some_iff_mem (h : x ≠ []) : f.get? x ≠ none ↔ ∃ node, (x, node) ∈ f.entries := by
  unfold get?
  rw [if_neg h, ne_eq, List.lookup_eq_none_iff]
  constructor
  · intro hn
    simp only [not_forall] at hn
    obtain ⟨⟨y, node⟩, hm, hy⟩ := hn
    have : x = y := by simpa using hy
    exact ⟨node, this ▸ hm⟩
  · rintro ⟨node, hm⟩ hn
    have := hn _ hm
    simp at this

/-! ### Names in a directory -/

theorem nameIn?_eq_some {dir loc : Location} {name : String} : nameIn? dir loc = some name ↔ loc = dir ++ [name] := by
  unfold nameIn?
  constructor
  · intro h
    split at h
    · rename_i hd
      rw [← hd]
      obtain ⟨hn, hl⟩ := List.getLast?_eq_some_iff.1 h
      rw [hl]
      simp
    · cases h
  · rintro rfl
    simp

/-- The names in a directory are those under which something is stored there. -/
theorem mem_names {name : String} : name ∈ f.names dir ↔ f.get? (dir ++ [name]) ≠ none := by
  have hne : dir ++ [name] ≠ [] := by simp
  rw [get?_eq_some_iff_mem hne]
  unfold names
  rw [List.mem_eraseDups, List.mem_filterMap]
  constructor
  · rintro ⟨⟨loc, node⟩, hm, hn⟩
    exact ⟨node, nameIn?_eq_some.1 hn ▸ hm⟩
  · rintro ⟨node, hm⟩
    exact ⟨_, hm, nameIn?_eq_some.2 rfl⟩

theorem nodup_names : (f.names dir).Nodup := nodup_eraseDups _

private theorem keys_putEntry (loc : Location) (node : Node) (l : List (Location × Node)) :
    (putEntry loc node l).map Prod.fst = if l.lookup loc = none then l.map Prod.fst ++ [loc] else l.map Prod.fst := by
  induction l with
  | nil => rfl
  | cons e l ih =>
    unfold putEntry
    by_cases hk : e.1 = loc
    · simp [hk]
    · have hk' : (loc == e.1) = false := by simpa using fun h => hk h.symm
      rw [if_neg hk, List.map_cons, ih, List.lookup_cons, hk']
      split <;> rfl

private theorem names_eq (f : Files) (dir : Location) :
    f.names dir = ((f.entries.map Prod.fst).filterMap (nameIn? dir)).eraseDups := by
  unfold names
  rw [List.filterMap_map]
  rfl

/-- Storing a node does not change the names in other directories. -/
theorem names_put_of_ne (h : loc.dropLast ≠ dir) : (f.put loc node).names dir = f.names dir := by
  have hnone : nameIn? dir loc = none := by
    unfold nameIn?
    rw [if_neg h]
  unfold put
  rw [names_eq, names_eq, keys_putEntry]
  split
  · rw [List.filterMap_append, List.filterMap_cons_none hnone, List.filterMap_nil, List.append_nil]
  · rfl

/-- A new name comes last. -/
theorem names_put {name : String} : (f.put (dir ++ [name]) node).names dir =
    if f.get? (dir ++ [name]) = none then f.names dir ++ [name] else f.names dir := by
  have hget : f.get? (dir ++ [name]) = f.entries.lookup (dir ++ [name]) := by
    unfold get?
    rw [if_neg (by simp)]
  have hmem : name ∈ f.names dir ↔ f.get? (dir ++ [name]) ≠ none := mem_names
  unfold put
  rw [names_eq, keys_putEntry, ← hget]
  split
  · rename_i hnone
    have hnew : name ∉ f.names dir := fun h => hmem.1 h hnone
    rw [List.filterMap_append, List.filterMap_cons_some (nameIn?_eq_some.2 rfl), List.filterMap_nil]
    rw [names_eq] at hnew ⊢
    rw [List.mem_eraseDups] at hnew
    have hkeep : [name].removeAll ((f.entries.map Prod.fst).filterMap (nameIn? dir)) = [name] := by
      unfold List.removeAll
      rw [List.filter_cons_of_pos (by simpa using hnew), List.filter_nil]
    rw [List.eraseDups_append, hkeep]
    rfl
  · exact (names_eq f dir).symm

/-- Nothing is stored deeper than the height. -/
theorem length_le_height (h : f.get? x ≠ none) : x.length ≤ f.height := by
  by_cases hx : x = []
  · simp [hx]
  · obtain ⟨node, hm⟩ := (get?_eq_some_iff_mem hx).1 h
    have mono : ∀ (l : List (Location × Node)) (n : Nat), n ≤ l.foldl (fun h e => max h e.1.length) n := by
      intro l
      induction l with
      | nil => exact fun n => Nat.le_refl n
      | cons e l ih => exact fun n => Nat.le_trans (Nat.le_max_left _ _) (ih _)
    have bound : ∀ (l : List (Location × Node)) (n : Nat), (x, node) ∈ l →
        x.length ≤ l.foldl (fun h e => max h e.1.length) n := by
      intro l
      induction l with
      | nil => intro n h; cases h
      | cons e l ih =>
        intro n h
        rcases List.mem_cons.1 h with rfl | h
        · exact Nat.le_trans (Nat.le_max_right _ _) (mono _ _)
        · exact ih _ h
    exact bound _ _ hm

/-! ### Well-formed file systems -/

/-- Whatever is stored lies in a directory, under a proper name. -/
structure WellFormed (f : Files) : Prop where
  parent : ∀ {dir name}, f.get? (dir ++ [name]) ≠ none → f.get? dir = some .directory
  proper : ∀ {dir name}, f.get? (dir ++ [name]) ≠ none → IsProper name

theorem WellFormed.ancestor (hf : f.WellFormed) {rest : List String} (h : f.get? (dir ++ rest) ≠ none)
    (hr : rest ≠ []) : f.get? dir = some .directory := by
  induction rest using List.reverseRecOn with
  | nil => exact absurd rfl hr
  | append_singleton rest name ih =>
    rw [← List.append_assoc] at h
    have hp := hf.parent h
    by_cases hn : rest = []
    · rwa [hn, List.append_nil] at hp
    · exact ih (by rw [hp]; exact Option.some_ne_none _) hn

/-- On the way to a directory there are directories. -/
theorem WellFormed.way (hf : f.WellFormed) (hd : f.get? dir = some .directory) (hx : x <+: dir) :
    f.get? x = some .directory := by
  obtain ⟨rest, rfl⟩ := hx
  by_cases hr : rest = []
  · rwa [hr, List.append_nil] at hd
  · exact hf.ancestor (by rw [hd]; exact Option.some_ne_none _) hr

/-- Below what is no directory nothing is stored. -/
theorem WellFormed.get?_below (hf : f.WellFormed) (h : f.get? dir ≠ some .directory) {rest : List String}
    (hr : rest ≠ []) : f.get? (dir ++ rest) = none := by
  by_contra hn
  exact h (hf.ancestor hn hr)

theorem WellFormed.proper_of_mem (hf : f.WellFormed) {rest : List String} (h : f.get? (dir ++ rest) ≠ none)
    {name : String} (hn : name ∈ rest) : IsProper name := by
  obtain ⟨before, after, rfl⟩ := List.append_of_mem hn
  refine hf.proper (?_ : f.get? ((dir ++ before) ++ [name]) ≠ none)
  rw [List.append_cons, ← List.append_assoc, ← List.append_assoc] at h
  by_cases ha : after = []
  · rwa [ha, List.append_nil] at h
  · rw [hf.ancestor h ha]
    exact Option.some_ne_none _

theorem WellFormed.eraseTree (hf : f.WellFormed) (hne : loc ≠ []) : (f.eraseTree loc).WellFormed := by
  have hkept : ∀ {d : Location} {n : String}, (f.eraseTree loc).get? (d ++ [n]) ≠ none →
      ¬ loc <+: d ++ [n] ∧ f.get? (d ++ [n]) ≠ none := by
    intro d n h
    rw [get?_eraseTree hne] at h
    split at h
    · exact absurd rfl h
    · rename_i hbelow
      exact ⟨hbelow, h⟩
  constructor
  · intro d n h
    obtain ⟨hbelow, hn⟩ := hkept h
    rw [get?_eraseTree_of_not_below hne fun hd => hbelow (hd.trans (List.prefix_append _ _))]
    exact hf.parent hn
  · intro d n h
    exact hf.proper (hkept h).2

/-- Taking away what is no directory. -/
theorem WellFormed.erase (hf : f.WellFormed) (h : f.get? loc ≠ some .directory) : (f.erase loc).WellFormed := by
  have hne : loc ≠ [] := by
    rintro rfl
    exact h (get?_nil f)
  have hkept : ∀ {x}, (f.erase loc).get? x ≠ none → f.get? x ≠ none := by
    intro x hx
    rw [get?_erase hne] at hx
    split at hx
    · exact absurd rfl hx
    · exact hx
  constructor
  · intro d n hn
    have hparent := hf.parent (hkept hn)
    rw [get?_erase hne, if_neg, hparent]
    rintro rfl
    exact h hparent
  · exact fun hn => hf.proper (hkept hn)

/-- Storing a node in a directory under a proper name, where it does not take the place of a directory. -/
theorem WellFormed.put (hf : f.WellFormed) {name : String} (hd : f.get? dir = some .directory)
    (hn : IsProper name) (hnode : f.get? (dir ++ [name]) = some .directory → node = .directory) :
    (f.put (dir ++ [name]) node).WellFormed := by
  have hne : dir ++ [name] ≠ [] := by simp
  constructor
  · intro d n h
    rw [get?_put hne] at h ⊢
    have hold : f.get? d = some .directory := by
      by_cases he : d ++ [n] = dir ++ [name]
      · rw [(List.append_inj_left' he rfl), hd]
      · rw [if_neg he] at h
        exact hf.parent h
    split
    · rename_i he
      rw [hnode (he ▸ hold)]
    · exact hold
  · intro d n h
    rw [get?_put hne] at h
    by_cases he : d ++ [n] = dir ++ [name]
    · have := List.append_inj_right' he rfl
      rw [List.cons.injEq] at this
      exact this.1 ▸ hn
    · rw [if_neg he] at h
      exact hf.proper h

/-- Files are checked entry by entry. -/
theorem wellFormed_of_entries (h : ∀ e ∈ f.entries, f.get? e.1.dropLast = some .directory ∧
    ∀ name ∈ e.1.getLast?, IsProper name) : f.WellFormed := by
  have hentry : ∀ {dir name}, f.get? (dir ++ [name]) ≠ none →
      f.get? dir = some .directory ∧ IsProper name := by
    intro dir name hn
    obtain ⟨node, hm⟩ := (get?_eq_some_iff_mem (by simp)).1 hn
    have he := h _ hm
    simpa using he
  exact ⟨fun hn => (hentry hn).1, fun hn => (hentry hn).2⟩

theorem get?_below_of_entries (h : ∀ e ∈ f.entries, dir <+: e.1 → e.1 = dir) {rel : List String} (hne : rel ≠ []) :
    f.get? (dir ++ rel) = none := by
  by_contra hn
  obtain ⟨node, hm⟩ := (get?_eq_some_iff_mem (by simp [hne])).1 hn
  exact hne (List.append_right_eq_self.1 (h _ hm (List.prefix_append _ _)))

/-! ### Links -/

private theorem links_eq (f : Files) : f.links = (f.entries.filter fun e => e.2.isLink).length := rfl

private theorem length_filter_putEntry {l : List (Location × Node)} (hl : ∀ old, l.lookup loc = some old → old.isLink = false)
    (hn : node.isLink = false) :
    ((putEntry loc node l).filter fun e => e.2.isLink).length = (l.filter fun e => e.2.isLink).length := by
  induction l with
  | nil => simp [putEntry, hn]
  | cons e l ih =>
    obtain ⟨key, stored⟩ := e
    unfold putEntry
    by_cases hk : key = loc
    · have hs : stored.isLink = false := hl stored (by rw [List.lookup_cons, hk, beq_self_eq_true])
      simp [hk, hn, hs]
    · have hb : (loc == key) = false := beq_eq_false_iff_ne.2 fun h => hk h.symm
      have ih' := ih fun old ho => hl old (by rw [List.lookup_cons, hb]; exact ho)
      rw [if_neg hk, List.filter_cons, List.filter_cons]
      split
      · rw [List.length_cons, List.length_cons, ih']
      · exact ih'

/-- Storing what is no link where there is no link does not change the number of links. -/
theorem links_put (hl : ∀ old, f.get? loc = some old → old.isLink = false) (hn : node.isLink = false)
    (h : loc ≠ []) : (f.put loc node).links = f.links := by
  rw [links_eq, links_eq]
  refine length_filter_putEntry (fun old ho => hl old ?_) hn
  unfold get?
  rw [if_neg h, ho]

/-- Different places of links are no more than the links. -/
theorem length_le_links {locs : List Location} (hd : locs.Nodup)
    (hl : ∀ loc ∈ locs, ∃ target, f.get? loc = some (.link target)) : locs.length ≤ f.links := by
  have hsub : locs ⊆ (f.entries.filter fun e => e.2.isLink).map Prod.fst := by
    intro loc hloc
    obtain ⟨target, ht⟩ := hl loc hloc
    have hne : loc ≠ [] := by
      rintro rfl
      simp at ht
    unfold get? at ht
    rw [if_neg hne, List.lookup_eq_some_iff] at ht
    obtain ⟨before, after, he, -⟩ := ht
    rw [List.mem_map]
    refine ⟨(loc, .link target), ?_, rfl⟩
    rw [List.mem_filter, he]
    exact ⟨by simp, rfl⟩
  have := (hd.subperm hsub).length_le
  rwa [List.length_map] at this

theorem get?_ne_link (h : f.links = 0) (x : Location) (target : String) : f.get? x ≠ some (.link target) := by
  intro hx
  have hlength := length_le_links (List.pairwise_singleton _ x) fun loc hloc => ⟨target, by
    rw [List.mem_singleton.1 hloc]
    exact hx⟩
  rw [h] at hlength
  simp at hlength

end Files

end Handout
