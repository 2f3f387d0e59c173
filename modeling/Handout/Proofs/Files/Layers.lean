import Handout.Proofs.Files.Overlay

/-!
# Layers

Where several copies are made to one directory, each is a layer over what the earlier ones left (`Stacked`).  A file
that a layer offers is there in the end, unless it went into a directory or a later layer covers its place
(`Stacked.file_of_last`).  When no file met a directory, the files are exactly those that the layers offer, and the
last layer that offers a file at a place decides (`Stacked.file_iff`).
-/

namespace Handout

/-- Below nothing and below a file, nothing is offered. -/
def Offers.Closed (offers : Offers) : Prop :=
  ∀ first rest, rest ≠ [] → offers (first ++ rest) ≠ none →
    offers first = some .directory ∨ offers first = some .refused

variable {offers : Offers} {name c : String} {old content : Content} {data : Bytes} {executable : Bool}
  {names : List String}

theorem Offers.Closed.under (h : offers.Closed) (c : String) : Offers.Closed (under offers c) :=
  fun first rest hrest hn => h (c :: first) rest hrest hn

/-- Where nothing is offered, nothing is offered below. -/
theorem Offers.Closed.none_below (h : offers.Closed) (hn : offers names = none) (rest : List String) :
    offers (names ++ rest) = none := by
  by_contra hsome
  by_cases hr : rest = []
  · rw [hr, List.append_nil] at hsome
    exact hsome hn
  · rcases h names rest hr hsome with h | h <;> rw [hn] at h <;> cases h

/-- What a copy leaves where it finds what it needs: everything that is offered, and else what was there. -/
theorem overlay_eq (hclosed : offers.Closed) (hfree : ¬ Clash offers name old)
    (hflat : ∀ names data executable, offers names = some (.file data executable) → old names ≠ some .directory)
    (names : List String) :
    overlay offers name old names = match offers names with
      | some .directory => some .directory
      | some (.file data executable) => some (.file data executable)
      | _ => old names := by
  induction names generalizing offers name old with
  | nil =>
    cases hoffer : offers [] with
    | none => exact absurd (clash_of_neither (.inl hoffer)) hfree
    | some offer =>
      cases offer with
      | directory => exact overlay_directory hoffer
      | file data executable => exact overlay_file_nil hoffer (hflat [] data executable hoffer)
      | refused => exact absurd (clash_of_neither (.inr hoffer)) hfree
  | cons c rest ih =>
    cases hoffer : offers [] with
    | none => exact absurd (clash_of_neither (.inl hoffer)) hfree
    | some offer =>
      cases offer with
      | refused => exact absurd (clash_of_neither (.inr hoffer)) hfree
      | file data executable =>
        rw [overlay_file_cons hoffer (hflat [] data executable hoffer)]
        have hnone : offers (c :: rest) = none := by
          by_contra hn
          rcases hclosed [] (c :: rest) (List.cons_ne_nil _ _) hn with h | h <;> rw [hoffer] at h <;> cases h
        rw [hnone]
      | directory =>
        have hunder : overlay offers name old (c :: rest) = overlay (under offers c) c (under old c) rest :=
          congrFun (under_overlay hoffer) rest
        rw [hunder]
        by_cases hc : offers [c] = none
        · have hnone : offers (c :: rest) = none := hclosed.none_below hc rest
          rw [overlay_none hc, hnone]
          rfl
        · refine ih (hclosed.under c) (fun hclash => ?_) fun names => hflat (c :: names)
          exact hfree ((clash_directory hoffer).2 (.inr ⟨c, hc, hclash⟩))

/-- A file that does not meet a directory is copied to its place. -/
theorem overlay_of_file (hclosed : offers.Closed) (hfree : ¬ Clash offers name old)
    (hfile : offers names = some (.file data executable)) (hold : old names ≠ some .directory) :
    overlay offers name old names = some (.file data executable) := by
  induction names generalizing offers name old with
  | nil => exact overlay_file_nil hfile hold
  | cons c rest ih =>
    have hsome : offers (c :: rest) ≠ none := by
      rw [hfile]
      exact Option.some_ne_none _
    rcases hclosed [] (c :: rest) (List.cons_ne_nil _ _) hsome with hoffer | hoffer
    · have hunder : overlay offers name old (c :: rest) = overlay (under offers c) c (under old c) rest :=
        congrFun (under_overlay hoffer) rest
      rw [hunder]
      have hc : offers [c] ≠ none := fun hc => hsome (hclosed.none_below hc rest)
      exact ih (hclosed.under c) (fun hclash => hfree ((clash_directory hoffer).2 (.inr ⟨c, hc, hclash⟩))) hfile hold
    · exact absurd (clash_of_neither (.inr hoffer)) hfree

/-- Directories stay. -/
theorem overlay_of_directory (hfree : ¬ Clash offers name old) (hold : old names = some .directory) :
    overlay offers name old names = some .directory := by
  induction names generalizing offers name old with
  | nil =>
    cases hoffer : offers [] with
    | none => exact absurd (clash_of_neither (.inl hoffer)) hfree
    | some offer =>
      cases offer with
      | directory => exact overlay_directory hoffer
      | file data executable => rw [overlay_file_inside hoffer hold, if_neg (by simp), hold]
      | refused => exact absurd (clash_of_neither (.inr hoffer)) hfree
  | cons c rest ih =>
    cases hoffer : offers [] with
    | none => exact absurd (clash_of_neither (.inl hoffer)) hfree
    | some offer =>
      cases offer with
      | refused => exact absurd (clash_of_neither (.inr hoffer)) hfree
      | directory =>
        have hunder : overlay offers name old (c :: rest) = overlay (under offers c) c (under old c) rest :=
          congrFun (under_overlay hoffer) rest
        rw [hunder]
        by_cases hc : offers [c] = none
        · rw [overlay_none hc]
          exact hold
        · exact ih (fun hclash => hfree ((clash_directory hoffer).2 (.inr ⟨c, hc, hclash⟩))) hold
      | file data executable =>
        by_cases hdir : old [] = some .directory
        · rw [overlay_file_inside hoffer hdir, if_neg, hold]
          intro he
          rw [he] at hold
          exact hfree ((clash_file hoffer).2 ⟨hdir, hold⟩)
        · rw [overlay_file_cons hoffer hdir, hold]

/-- A file in the place of a directory is in the way. -/
theorem clash_of_not_directory (hclosed : offers.Closed) (hoffer : offers names = some .directory) (hnone : old names ≠ none)
    (hold : old names ≠ some .directory) : Clash offers name old := by
  induction names generalizing offers name old with
  | nil => exact (clash_directory hoffer).2 (.inl ⟨hnone, hold⟩)
  | cons c rest ih =>
    have hsome : offers (c :: rest) ≠ none := by
      rw [hoffer]
      exact Option.some_ne_none _
    rcases hclosed [] (c :: rest) (List.cons_ne_nil _ _) hsome with hfirst | hfirst
    · have hc : offers [c] ≠ none := fun hc => hsome (hclosed.none_below hc rest)
      exact (clash_directory hfirst).2 (.inr ⟨c, hc, ih (hclosed.under c) hoffer hnone hold⟩)
    · exact clash_of_neither (.inr hfirst)

/-- A file in the place of a copy stays unless a file is copied. -/
theorem overlay_nil_of_file {d : Bytes} {x : Bool} (hfree : ¬ Clash offers name old) (hold : old [] = some (.file d x)) :
    overlay offers name old [] = match (match offers [] with
        | some (.file data executable) => some (data, executable)
        | _ => none : Option (Bytes × Bool)) with
      | some (data, executable) => some (.file data executable)
      | none => some (.file d x) := by
  cases hoffer : offers [] with
  | none => exact absurd (clash_of_neither (.inl hoffer)) hfree
  | some offer =>
    cases offer with
    | directory => exact absurd ((clash_directory hoffer).2 (.inl (by rw [hold]; exact ⟨nofun, nofun⟩))) hfree
    | file data executable => exact overlay_file_nil hoffer (by rw [hold]; exact nofun)
    | refused => exact absurd (clash_of_neither (.inr hoffer)) hfree

/-- The name of a directory that is copied does not matter. -/
theorem overlay_name (h : offers [] = some .directory) (name name' : String) :
    overlay offers name old = overlay offers name' old := by
  funext names
  cases names with
  | nil => rw [overlay_directory h, overlay_directory h]
  | cons c rest => exact (congrFun (under_overlay h) rest).trans (congrFun (under_overlay h) rest).symm

theorem clash_name (h : offers [] = some .directory) (name name' : String) :
    Clash offers name old ↔ Clash offers name' old := by
  rw [clash_directory h, clash_directory h]

/-! ### Copies one after the other -/

/-- A copy to a directory: what is offered, the name of the source, and the place to which it goes. -/
structure Layer where
  offers : Offers
  name : String
  place : List String

namespace Layer

/-- What is stored after the copy. -/
def onto (l : Layer) (old : Content) : Content := deposit l.offers l.name l.place old

/-- The copy cannot be made. -/
def IsObstructed (l : Layer) (old : Content) : Prop := Obstructed l.offers l.name l.place old

/-- The file that a layer has at a place. -/
def file? (l : Layer) (names : List String) : Option (Bytes × Bool) :=
  if l.place <+: names then
    match l.offers (names.drop l.place.length) with
    | some (.file data executable) => some (data, executable)
    | _ => none
  else none

theorem file?_append (l : Layer) (rest : List String) : l.file? (l.place ++ rest) = match l.offers rest with
    | some (.file data executable) => some (data, executable)
    | _ => none := by
  unfold file?
  rw [if_pos (List.prefix_append _ _), List.drop_left]

theorem file?_eq_none {l : Layer} (h : ¬ l.place <+: names) : l.file? names = none := by
  unfold file?
  rw [if_neg h]

theorem file?_eq_some {l : Layer} (h : l.file? names = some (data, executable)) :
    ∃ rest, names = l.place ++ rest ∧ l.offers rest = some (.file data executable) := by
  by_cases hplace : l.place <+: names
  · obtain ⟨rest, rfl⟩ := hplace
    rw [file?_append] at h
    split at h
    · rename_i hoffer
      cases h
      exact ⟨rest, rfl, hoffer⟩
    · cases h
  · rw [file?_eq_none hplace] at h
    cases h

variable {l : Layer}

/-- Two copies of the same to one place leave the same. -/
theorem onto_eq {k : Layer} (hoffers : l.offers = k.offers) (hplace : l.place = k.place)
    (hname : l.offers [] = some .directory ∨ l.name = k.name) : l.onto old = k.onto old := by
  unfold onto
  rw [← hoffers, ← hplace]
  rcases hname with hdir | hname
  · funext names
    unfold deposit
    rw [overlay_name hdir l.name k.name]
  · rw [hname]

theorem isObstructed_iff {k : Layer} (hoffers : l.offers = k.offers) (hplace : l.place = k.place)
    (hname : l.offers [] = some .directory ∨ l.name = k.name) : l.IsObstructed old ↔ k.IsObstructed old := by
  unfold IsObstructed Obstructed
  rw [← hoffers, ← hplace]
  rcases hname with hdir | hname
  · rw [clash_name hdir l.name k.name]
  · rw [hname]

/-- Directories stay. -/
theorem onto_of_directory (hfree : ¬ l.IsObstructed old) (hold : old names = some .directory) :
    l.onto old names = some .directory := by
  unfold onto
  by_cases hplace : l.place <+: names
  · obtain ⟨rest, rfl⟩ := hplace
    rw [deposit_append]
    exact overlay_of_directory (fun hclash => hfree (.inr hclash)) hold
  · by_cases hway : names <+: l.place
    · unfold deposit
      rw [if_neg hplace, if_pos hway]
    · rw [deposit_of_not hplace hway, hold]

/-- What is not at the place of a copy stays, apart from directories that are made on the way. -/
theorem onto_of_not (hplace : ¬ l.place <+: names) (hdir : l.onto old names ≠ some .directory) :
    l.onto old names = old names := by
  unfold onto at hdir ⊢
  by_cases hway : names <+: l.place
  · unfold deposit at hdir
    rw [if_neg hplace, if_pos hway] at hdir
    exact absurd rfl hdir
  · exact deposit_of_not hplace hway

/-- A file that does not meet a directory is copied to its place. -/
theorem onto_of_file (hclosed : l.offers.Closed) (hfree : ¬ l.IsObstructed old)
    (hfile : l.file? names = some (data, executable)) (hold : old names ≠ some .directory) :
    l.onto old names = some (.file data executable) := by
  obtain ⟨rest, rfl, hoffer⟩ := file?_eq_some hfile
  unfold onto
  rw [deposit_append]
  exact overlay_of_file hclosed (fun hclash => hfree (.inr hclash)) hoffer hold

/-- Where no file meets a directory, the files are those of the copy and else those that were there. -/
theorem onto_file_iff (hclosed : l.offers.Closed) (hfree : ¬ l.IsObstructed old)
    (hflat : ∀ names, l.file? names ≠ none → old names ≠ some .directory) :
    l.onto old names = some (.file data executable) ↔
      l.file? names = some (data, executable) ∨ l.file? names = none ∧ old names = some (.file data executable) := by
  by_cases hplace : l.place <+: names
  · obtain ⟨rest, rfl⟩ := hplace
    have hoverlay := overlay_eq hclosed (fun hclash => hfree (.inr hclash)) (fun rest data executable hoffer => by
      refine hflat (l.place ++ rest) ?_
      rw [file?_append, hoffer]
      exact Option.some_ne_none _) rest
    unfold onto
    rw [deposit_append, hoverlay, file?_append]
    cases hoffer : l.offers rest with
    | none => simp
    | some offer =>
      cases offer with
      | file data executable => simp
      | refused => simp
      | directory =>
        have hold : old (l.place ++ rest) = none ∨ old (l.place ++ rest) = some .directory := by
          by_contra hn
          rw [not_or] at hn
          exact hfree (.inr (clash_of_not_directory hclosed hoffer hn.1 hn.2))
        rcases hold with hold | hold <;> simp [hold]
  · rw [file?_eq_none hplace]
    unfold onto
    by_cases hway : names <+: l.place
    · have hne : names ≠ l.place := fun he => hplace (he ▸ List.prefix_refl _)
      have hdrop : names <+: l.place.dropLast := by
        rcases List.eq_nil_or_concat' l.place with hnil | ⟨init, c, hinit⟩
        · rw [hnil] at hway hne
          exact absurd (List.prefix_nil.1 hway) hne
        · rw [hinit] at hway hne ⊢
          rw [List.dropLast_concat]
          exact (List.prefix_concat_iff.1 hway).resolve_left hne
      have hold : ¬ (old names ≠ none ∧ old names ≠ some .directory) := fun h =>
        hfree (.inl ⟨names, hdrop, h.1, h.2⟩)
      unfold deposit
      rw [if_neg hplace, if_pos hway]
      simp only [reduceCtorEq, Option.some.injEq, false_or, true_and, false_iff]
      intro hfile
      rw [hfile] at hold
      exact hold ⟨nofun, nofun⟩
    · rw [deposit_of_not hplace hway]
      simp

/-- At the top of a directory, a file stays unless the layer has another one there. -/
theorem onto_top_file {d : Bytes} {x : Bool} (hfree : ¬ l.IsObstructed old)
    (hbase : l.place = [] → ∀ data executable, l.offers [] ≠ some (.file data executable)) (hold : old [c] = some (.file d x)) :
    l.onto old [c] = match l.file? [c] with
      | some (data, executable) => some (.file data executable)
      | none => some (.file d x) := by
  unfold onto
  by_cases hplace : l.place <+: [c]
  · have hclash : ¬ Clash l.offers l.name fun rest => old (l.place ++ rest) := fun h => hfree (.inr h)
    obtain ⟨rest, hrest⟩ := hplace
    rw [← hrest, deposit_append, file?_append]
    rw [← hrest] at hold
    rcases List.append_eq_singleton_iff.1 hrest with ⟨hnil, rfl⟩ | ⟨-, rfl⟩
    · -- the layer is a directory that is laid over the whole
      have hoffer : l.offers [] = some .directory := by
        cases hoffer : l.offers [] with
        | none => exact absurd (clash_of_neither (.inl hoffer)) hclash
        | some offer =>
          cases offer with
          | directory => rfl
          | file data executable => exact absurd hoffer (hbase hnil data executable)
          | refused => exact absurd (clash_of_neither (.inr hoffer)) hclash
      have hunder : under (overlay l.offers l.name fun rest => old (l.place ++ rest)) c =
          overlay (under l.offers c) c (under (fun rest => old (l.place ++ rest)) c) := under_overlay hoffer
      refine (congrFun hunder []).trans ?_
      by_cases hc : l.offers [c] = none
      · rw [overlay_none hc, hc]
        exact hold
      · have hfree : ¬ Clash (under l.offers c) c (under (fun rest => old (l.place ++ rest)) c) := fun h =>
          hclash ((clash_directory hoffer).2 (.inr ⟨c, hc, h⟩))
        exact overlay_nil_of_file hfree hold
    · exact overlay_nil_of_file hclash hold
  · rw [file?_eq_none hplace]
    by_cases hway : [c] <+: l.place
    · have hne : l.place ≠ [c] := fun h => hplace (h ▸ List.prefix_refl _)
      refine absurd (.inl ⟨[c], ?_, by rw [hold]; exact Option.some_ne_none _, by rw [hold]; exact nofun⟩) hfree
      obtain ⟨rest, hrest⟩ := hway
      rw [← hrest] at hne ⊢
      rw [List.dropLast_append_of_ne_nil fun hnil => hne (by rw [hnil, List.append_nil])]
      exact List.prefix_append _ _
    · rw [deposit_of_not hplace hway]
      exact hold

/-- A layer leaves alone what is at and below some names. -/
def Spares (l : Layer) (region : List String) : Prop := ∀ old rest, l.onto old (region ++ rest) = old (region ++ rest)

theorem spares_of_apart {region : List String} (h : ¬ l.place <+: region) (h' : ¬ region <+: l.place) : l.Spares region := by
  intro old rest
  refine deposit_of_not (fun hplace => ?_) fun hway => h' ((List.prefix_append _ _).trans hway)
  exact (List.prefix_or_prefix_of_prefix hplace (List.prefix_append region rest)).elim h h'

/-- A file that is copied leaves alone what is below it under other names. -/
theorem spares_of_file (hfile : l.offers [] = some (.file data executable)) (hc : c ≠ l.name) (more : List String) :
    l.Spares (l.place ++ c :: more) := by
  intro old rest
  unfold onto
  rw [List.append_assoc, deposit_append]
  by_cases hdir : old l.place = some .directory
  · rw [overlay_file_inside hfile (by rwa [List.append_nil]), List.cons_append,
      if_neg fun h => hc (List.cons.inj h).1]
  · exact overlay_file_cons hfile (by rwa [List.append_nil]) _

end Layer

/-- Layers that were laid one over the other, from the first one on, and what is stored in the end. -/
inductive Stacked : List Layer → Content → Prop
  | bare : Stacked [] fun names => if names = [] then some .directory else none
  | lay {ls : List Layer} {old : Content} (l : Layer) (h : Stacked ls old) (free : ¬ l.IsObstructed old) :
      Stacked (ls ++ [l]) (l.onto old)

variable {ls first rest : List Layer}

/-- A layer that is never laid, because it offers nothing. -/
def Layer.never : Layer := ⟨fun _ => none, "", []⟩

theorem Stacked.never_not_mem (h : Stacked ls content) : Layer.never ∉ ls := by
  induction h with
  | bare => exact List.not_mem_nil
  | lay l h free ih =>
    intro hmem
    rcases List.mem_append.1 hmem with hmem | hmem
    · exact ih hmem
    · obtain rfl := List.mem_singleton.1 hmem
      exact free (.inr (clash_of_neither (.inl rfl)))

/-- Without layers there is only the directory itself. -/
theorem Stacked.eq_bare (h : Stacked [] content) : content = fun names => if names = [] then some .directory else none := by
  generalize hls : ([] : List Layer) = ls at h
  cases h with
  | bare => rfl
  | lay l h free => simp at hls

/-- The layers before the last one. -/
theorem Stacked.before {l : Layer} (h : Stacked (ls ++ [l]) content) :
    ∃ old, Stacked ls old ∧ ¬ l.IsObstructed old ∧ content = l.onto old := by
  generalize hall : ls ++ [l] = all at h
  cases h with
  | bare => simp at hall
  | lay l' h free =>
    obtain ⟨rfl, rfl⟩ := List.append_inj' hall rfl |>.imp id fun he => (List.cons.inj he).1
    exact ⟨_, h, free, rfl⟩

/-- The last layers that reach to a place decide on the file there, if they agree. -/
theorem Stacked.file_of_last (h : Stacked (first ++ rest) content) (hclosed : ∀ l ∈ rest, l.offers.Closed)
    (hsome : ∃ l ∈ rest, l.place <+: names)
    (hfile : ∀ l ∈ rest, l.place <+: names → l.file? names = some (data, executable))
    (hdir : content names ≠ some .directory) : content names = some (.file data executable) := by
  induction rest using List.reverseRecOn generalizing content with
  | nil =>
    obtain ⟨l, hl, -⟩ := hsome
    cases hl
  | append_singleton rest l ih =>
    rw [← List.append_assoc] at h
    obtain ⟨old, hold, hfree, rfl⟩ := h.before
    have hdir' : old names ≠ some .directory := fun hd => hdir (Layer.onto_of_directory hfree hd)
    have hl : l ∈ rest ++ [l] := by simp
    by_cases hplace : l.place <+: names
    · exact Layer.onto_of_file (hclosed l hl) hfree (hfile l hl hplace) hdir'
    · rw [Layer.onto_of_not hplace hdir]
      refine ih hold (fun k hk => hclosed k (List.mem_append_left _ hk)) ?_
        (fun k hk => hfile k (List.mem_append_left _ hk)) hdir'
      obtain ⟨k, hk, hkplace⟩ := hsome
      rcases List.mem_append.1 hk with hk | hk
      · exact ⟨k, hk, hkplace⟩
      · rw [List.mem_singleton.1 hk] at hkplace
        exact absurd hkplace hplace

/-- A file at the top of a directory is the one of the last layer that has a file there. -/
theorem Stacked.top_file {d : Bytes} {x : Bool} (h : Stacked (first ++ rest) content)
    (hfirst : ∀ old, Stacked first old → old [c] = some (.file d x))
    (hbase : ∀ l ∈ rest, l.place = [] → ∀ data executable, l.offers [] ≠ some (.file data executable)) :
    content [c] = match rest.reverse.findSome? fun l => l.file? [c] with
      | some (data, executable) => some (.file data executable)
      | none => some (.file d x) := by
  induction rest using List.reverseRecOn generalizing content with
  | nil => exact hfirst content (by rwa [List.append_nil] at h)
  | append_singleton rest l ih =>
    rw [← List.append_assoc] at h
    obtain ⟨old, hold, hfree, rfl⟩ := h.before
    have hbefore := ih hold fun k hk => hbase k (List.mem_append_left _ hk)
    rw [List.reverse_append, List.reverse_singleton, List.singleton_append, List.findSome?_cons]
    cases hlast : rest.reverse.findSome? fun l => l.file? [c] with
    | none =>
      rw [hlast] at hbefore
      rw [Layer.onto_top_file hfree (hbase l (by simp)) hbefore]
      cases l.file? [c] <;> rfl
    | some file =>
      rw [hlast] at hbefore
      rw [Layer.onto_top_file hfree (hbase l (by simp)) hbefore]
      cases l.file? [c] <;> rfl

/-- Where all layers but some copies of the same source leave a place alone, the files there are those of the source. -/
theorem Stacked.region_iff {region : List String} (hregion : region ≠ []) (hclosed : offers.Closed) (h : Stacked ls content)
    (hls : ∀ l ∈ ls, l.Spares region ∨ l.place = region ∧ l.offers = offers)
    (hsome : (∃ l ∈ ls, l.place = region ∧ l.offers = offers) ∨ ∀ rest data executable, offers rest ≠ some (.file data executable))
    (rest : List String) :
    content (region ++ rest) = some (.file data executable) ↔ offers rest = some (.file data executable) := by
  -- either the source has not been copied yet and nothing is there, or it has been
  have hstate : (∀ rest, content (region ++ rest) = none) ∧ (¬ ∃ l ∈ ls, l.place = region ∧ l.offers = offers) ∨
      ∀ rest data executable, content (region ++ rest) = some (.file data executable) ↔
        offers rest = some (.file data executable) := by
    clear hsome
    induction h with
    | bare => exact .inl ⟨fun rest => if_neg fun h => hregion (List.append_eq_nil_iff.1 h).1, by simp⟩
    | @lay ls old l h free ih =>
      have hbefore := ih fun k hk => hls k (List.mem_append_left _ hk)
      by_cases hcopy : l.place = region ∧ l.offers = offers
      · obtain ⟨rfl, rfl⟩ := hcopy
        refine .inr fun rest data executable => ?_
        have hflat : ∀ names, l.file? names ≠ none → old names ≠ some .directory := by
          intro names hfile
          obtain ⟨file, hsome⟩ := Option.ne_none_iff_exists'.1 hfile
          obtain ⟨more, rfl, hoffer⟩ := Layer.file?_eq_some hsome
          rcases hbefore with ⟨hnone, -⟩ | hfiles
          · rw [hnone]
            exact nofun
          · rw [(hfiles more _ _).2 hoffer]
            exact nofun
        rw [Layer.onto_file_iff hclosed free hflat, Layer.file?_append]
        cases hoffer : l.offers rest with
        | none =>
          rcases hbefore with ⟨hnone, -⟩ | hfiles
          · simp [hnone]
          · simp [hfiles, hoffer]
        | some offer =>
          cases offer with
          | file data executable => simp
          | _ =>
            rcases hbefore with ⟨hnone, -⟩ | hfiles
            · simp [hnone]
            · simp [hfiles, hoffer]
      · have hspares := (hls l (by simp)).resolve_right hcopy
        rcases hbefore with ⟨hnone, hnot⟩ | hfiles
        · refine .inl ⟨fun rest => (hspares old rest).trans (hnone rest), ?_⟩
          rintro ⟨k, hk, hcopied⟩
          rcases List.mem_append.1 hk with hk | hk
          · exact hnot ⟨k, hk, hcopied⟩
          · rw [List.mem_singleton.1 hk] at hcopied
            exact hcopy hcopied
        · refine .inr fun rest data executable => ?_
          rw [hspares old rest]
          exact hfiles rest data executable
  rcases hstate with ⟨hnone, hnot⟩ | hfiles
  · rcases hsome with hsome | hempty
    · exact absurd hsome hnot
    · rw [hnone]
      exact ⟨nofun, fun h => absurd h (hempty rest data executable)⟩
  · exact hfiles rest data executable

/-- Where no file met a directory, the last layer that has a file at a place decides. -/
theorem Stacked.file_iff (h : Stacked ls content) (hclosed : ∀ l ∈ ls, l.offers.Closed)
    (hflat : ∀ l ∈ ls, ∀ names, l.file? names ≠ none → content names ≠ some .directory) :
    content names = some (.file data executable) ↔
      ls.reverse.findSome? (fun l => l.file? names) = some (data, executable) := by
  induction h with
  | bare =>
    simp only [List.reverse_nil, List.findSome?_nil, reduceCtorEq, iff_false]
    split <;> exact nofun
  | @lay ls old l h free ih =>
    have hflat' : ∀ k ∈ ls ++ [l], ∀ names, k.file? names ≠ none → old names ≠ some .directory :=
      fun k hk names hn hd => hflat k hk names hn (Layer.onto_of_directory free hd)
    rw [Layer.onto_file_iff (hclosed l (by simp)) free (hflat' l (by simp)),
      ih (fun k hk => hclosed k (List.mem_append_left _ hk)) fun k hk => hflat' k (List.mem_append_left _ hk)]
    rw [List.reverse_append, List.reverse_singleton, List.singleton_append, List.findSome?_cons]
    cases l.file? names with
    | none => simp
    | some file => simp

end Handout
