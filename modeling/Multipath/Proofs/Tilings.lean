import Multipath.Proofs.Lookahead
import Multipath.Proofs.Rereading

/-!
Tokens tile the text. Cut into longest matches from the start on, a text is used up or a scan is met
that accepts nothing. In the first case all tokens are found, and they are the pieces that have a
visible tag, with nothing but ignored pieces before, between and behind them; in the second there is
an error, which tells where and how that scan ended (`Lexer.tokens_tile`).
-/

namespace Multipath

namespace Source

/-- The characters of a span. -/
def slice (src : Source) (span : Span) : List Char :=
  (src.input.drop span.start.index).take (span.stop.index - span.start.index)

/-- The token that a piece shows, with its visible tags, if there are any. -/
def shown? (src : Source) (x : Piece) : Option Token :=
  if (x.tags \ src.ignored).isEmpty then none
  else some ⟨x.tags \ src.ignored, x.span, src.text x.span⟩

/-- Nothing lies between the two positions but whole pieces that are ignored. -/
def Skips (src : Source) (p q : Position) : Prop :=
  ∃ xs, src.Pieces p xs q ∧ ∀ x ∈ xs, src.Hides x

/-- Each token is a longest match with its visible tags, and what lies before, between and behind
them is ignored. -/
inductive Tiles (src : Source) : Position → List Token → Position → Prop
  | done {p q} : src.Skips p q → Tiles src p [] q
  | token {p t m ts q} : src.Skips p t.span.start →
      (src.scan t.span.start).accepted = some m → t.span.stop = m.stop →
      (∀ tag, tag ∈ t.tags ↔ tag ∈ m.tags ∧ tag ∉ src.ignored) → t.tags ≠ ∅ →
      Tiles src t.span.stop ts q → Tiles src p (t :: ts) q

variable {src : Source} {p q : Position} {m : Match} {x : Piece} {xs : List Piece}
  {t : Token} {ts : List Token}

theorem toList_text (src : Source) (span : Span) : (src.text span).toList = src.slice span := by
  rw [text, rest_eq, String.toList_ofList, slice]

section Pieces

theorem Pieces.within (h : src.Pieces p xs q) : ∀ x ∈ xs, p.index ≤ x.span.start.index ∧
    x.span.start.index < x.span.stop.index ∧ x.span.stop.index ≤ src.length := by
  induction h with
  | nil => nofun
  | @cons p m xs q hm _ ih =>
      have hstop := scan_accepted hm
      refine List.forall_mem_cons.mpr ⟨⟨Nat.le_refl _, hstop⟩, fun x hx => ?_⟩
      obtain ⟨hle, hbounds⟩ := ih x hx
      exact ⟨by omega, hbounds⟩

theorem Pieces.ordered (h : src.Pieces p xs q) :
    xs.Pairwise fun x y => x.span.stop.index ≤ y.span.start.index := by
  induction h with
  | nil => exact .nil
  | cons _ hrest ih => exact .cons (fun x hx => (hrest.within x hx).1) ih

/-- Put together, the pieces are the text between the two positions. -/
theorem Pieces.flatten_slices (h : src.Pieces p xs q) :
    (xs.map fun x => src.slice x.span).flatten = src.slice ⟨p, q⟩ := by
  induction h with
  | nil => simp [slice]
  | @cons p m xs q hm hrest ih =>
      have hstop := (scan_accepted hm).1
      have hle := hrest.index_add_length_le
      have hlength : q.index - p.index =
          m.stop.index - p.index + (q.index - m.stop.index) := by omega
      have hdrop : p.index + (m.stop.index - p.index) = m.stop.index := by omega
      rw [List.map_cons, List.flatten_cons, ih]
      simp only [slice]
      rw [hlength, List.take_add, List.drop_drop, hdrop]

/-- From every position on, the text can be cut into pieces until a scan accepts nothing. -/
theorem exists_pieces (src : Source) (p : Position) :
    ∃ xs q, src.Pieces p xs q ∧ (src.scan q).accepted = none := by
  induction p using src.matches_wellFounded.induction with
  | h p ih =>
      cases hm : (src.scan p).accepted with
      | none => exact ⟨[], p, .nil, hm⟩
      | some m =>
          obtain ⟨xs, q, hxs, hq⟩ := ih m.stop ⟨m, hm, rfl⟩
          exact ⟨_, q, .cons hm hxs, hq⟩

end Pieces

section Shown

theorem shown?_eq_none : src.shown? x = none ↔ src.Hides x := by
  unfold shown?
  split
  · next h => exact iff_of_true rfl (SortedSet.isSubset_iff.mp ((isEmpty_visible_iff _ _).mp h))
  · next h =>
      exact iff_of_false nofun fun hx =>
        h ((isEmpty_visible_iff _ _).mpr (SortedSet.isSubset_iff.mpr hx))

theorem span_of_shown (h : src.shown? x = some t) : t.span = x.span ∧ t.text = src.text x.span := by
  unfold shown? at h
  split at h
  · cases h
  · cases h
    exact ⟨rfl, rfl⟩

theorem tags_of_shown (h : src.shown? x = some t) :
    (∀ tag, tag ∈ t.tags ↔ tag ∈ x.tags ∧ tag ∉ src.ignored) ∧ t.tags ≠ ∅ := by
  unfold shown? at h
  split at h
  · cases h
  · next hsome =>
      cases h
      refine ⟨fun tag => Std.ExtTreeSet.mem_diff_iff, fun hnone => hsome ?_⟩
      exact Std.ExtTreeSet.isEmpty_iff.mpr hnone

theorem Tiles.skip (hm : (src.scan p).accepted = some m) (hhides : src.Hides ⟨⟨p, m.stop⟩, m.tags⟩)
    (h : src.Tiles m.stop ts q) : src.Tiles p ts q := by
  have hskips {q : Position} (h : src.Skips m.stop q) : src.Skips p q := by
    obtain ⟨xs, hxs, hall⟩ := h
    exact ⟨_, .cons hm hxs, List.forall_mem_cons.mpr ⟨hhides, hall⟩⟩
  cases h with
  | done h => exact .done (hskips h)
  | token h hm' hstop htags hne hrest => exact .token (hskips h) hm' hstop htags hne hrest

/-- The pieces that are shown tile what is cut into pieces. -/
theorem Pieces.tiles (h : src.Pieces p xs q) : src.Tiles p (xs.filterMap src.shown?) q := by
  induction h with
  | nil => exact .done ⟨[], .nil, nofun⟩
  | @cons p m xs q hm _ ih =>
      cases hshown : src.shown? ⟨⟨p, m.stop⟩, m.tags⟩ with
      | none =>
          rw [List.filterMap_cons_none hshown]
          exact ih.skip hm (shown?_eq_none.mp hshown)
      | some t =>
          rw [List.filterMap_cons_some hshown]
          obtain ⟨htags, hne⟩ := tags_of_shown hshown
          have hspan := (span_of_shown hshown).1
          refine .token ⟨[], ?_, nofun⟩ ?_ (hspan ▸ rfl) htags hne (hspan ▸ ih) <;> rw [hspan]
          · exact .nil
          · exact hm

/-- Tokens tile the text. Put together, the pieces that it is cut into are the text, and the tokens
are those of them that are shown. -/
structure Tiling (src : Source) (xs : List Piece) (ts : List Token) (q : Position) : Prop where
  shown : ts = xs.filterMap src.shown?
  whole : (xs.map fun x => src.slice x.span).flatten = src.input
  tiles : src.Tiles .start ts q
  text : ∀ t ∈ ts, t.text.toList = src.slice t.span ∧ t.text ≠ ""
  forward : ∀ t ∈ ts, t.span.start.index < t.span.stop.index
  ordered : ts.Pairwise fun t u => t.span.stop.index ≤ u.span.start.index

/-- Where the pieces reach to the end of the text, nothing is lost. -/
theorem Pieces.tiling (h : src.Pieces .start xs q) (hend : q.index = src.input.length) :
    src.Tiling xs (xs.filterMap src.shown?) q := by
  have hpiece {t : Token} (ht : t ∈ xs.filterMap src.shown?) :
      t.span.start.index < t.span.stop.index ∧ t.span.stop.index ≤ src.length ∧
        t.text = src.text t.span := by
    obtain ⟨x, hx, hshown⟩ := List.mem_filterMap.mp ht
    obtain ⟨hspan, htext⟩ := span_of_shown hshown
    rw [hspan]
    exact ⟨(h.within x hx).2.1, (h.within x hx).2.2, htext⟩
  refine ⟨rfl, ?_, h.tiles, fun t ht => ?_, fun t ht => (hpiece ht).1, ?_⟩
  · rw [h.flatten_slices, slice, hend]
    simp [Position.start]
  · obtain ⟨hlt, hle, htext⟩ := hpiece ht
    rw [length_eq] at hle
    have hslice : t.text.toList = src.slice t.span := htext ▸ src.toList_text t.span
    refine ⟨hslice, fun hempty => ?_⟩
    have hlength : (src.slice t.span).length = t.span.stop.index - t.span.start.index := by
      rw [slice, List.length_take, List.length_drop]
      omega
    rw [← hslice, hempty, String.toList_empty, List.length_nil] at hlength
    omega
  · refine h.ordered.filterMap _ fun x y hxy t ht u hu => ?_
    rw [(span_of_shown ht).1, (span_of_shown hu).1]
    exact hxy

end Shown

section Reading

/-- Where the same is read next, the same is read on. -/
theorem readAll_congr (htoken : src.token p = src.token q) (hend : src.atEnd p = src.atEnd q) :
    (src.readAll p).1 = (src.readAll q).1 := by
  cases h : src.token q with
  | ok t => rw [readAll_of_ok h, readAll_of_ok (htoken.trans h)]
  | error e => rw [readAll_of_error h, readAll_of_error (htoken.trans h), hend]

/-- The error in which reading ends where a scan accepts nothing before the end of the text. -/
def deadEnd (src : Source) (p : Position) : LexicalError :=
  if (src.scan p).exhausted then .endOfInput (Position.start.advanceAll src.input) else .noToken p

theorem readAll_of_dead (hp : src.IsPlace p) (hdead : (src.scan p).accepted = none) :
    (src.readAll p).1 =
      if p.index = src.input.length then .ok [] else .error (src.deadEnd p) := by
  have hle := hp.index_le
  have hatEnd : src.atEnd p = decide (src.length ≤ p.index) := by
    rw [atEnd, skipIgnored_of_not_accepted hdead]
  have htoken := token_of_not_accepted hdead
  rw [hp.advanceAll_rest] at htoken
  rw [length_eq] at hle hatEnd htoken
  by_cases hlength : p.index = src.input.length
  · rw [if_pos hlength]
    split at htoken <;> rw [readAll_of_error htoken, hatEnd]
    · simp [hlength, LexicalError.isEndOfInput]
    · next hend => simp [hlength] at hend
  · have hlt : ¬src.input.length ≤ p.index := by omega
    rw [if_neg hlength, deadEnd]
    split at htoken <;> rw [readAll_of_error htoken, hatEnd]
    · next hend =>
        have hexhausted : (src.scan p).exhausted = true := by simpa [hlt] using hend
        simp [hlt, hexhausted]
    · next hend =>
        have hexhausted : (src.scan p).exhausted = false := by simpa [hlt] using hend
        simp [hexhausted, LexicalError.isEndOfInput]

/-- Reading from a position on gives the pieces that are shown, up to where a scan accepts
nothing. -/
theorem Pieces.readAll_eq (h : src.Pieces p xs q) (hp : src.IsPlace p)
    (hdead : (src.scan q).accepted = none) : (src.readAll p).1 =
      if q.index = src.input.length then .ok (xs.filterMap src.shown?)
      else .error (src.deadEnd q) := by
  induction h with
  | nil => exact readAll_of_dead hp hdead
  | @cons p m xs q hm _ ih =>
      have ih := ih (hp.of_scan hm) hdead
      cases hshown : src.shown? ⟨⟨p, m.stop⟩, m.tags⟩ with
      | none =>
          rw [List.filterMap_cons_none hshown]
          have hsub : m.tags.isSubset src.ignored = true :=
            SortedSet.isSubset_iff.mpr (shown?_eq_none.mp hshown)
          refine (readAll_congr (q := m.stop) ?_ ?_).trans ih
          · rw [token_of_accepted hm, if_pos ((isEmpty_visible_iff _ _).mpr hsub)]
          · rw [atEnd, atEnd, skipIgnored_of_accepted hm, if_pos hsub]
      | some t =>
          rw [List.filterMap_cons_some hshown]
          unfold shown? at hshown
          split at hshown
          · cases hshown
          · next hvisible =>
              cases hshown
              rw [readAll_of_ok ((token_of_accepted hm).trans (if_neg hvisible)), ih]
              split <;> rfl

end Reading
end Source

/-- Reading all tokens from the start on. They are found just when longest matches, one behind the
other, use up the text; then they are the matches that have a visible tag, and they tile the text.
Otherwise the error is that of the first scan that accepted nothing: no token where the automaton
died, or the end of the text where it was alive to the end. -/
theorem Lexer.tokens_tile {src : Source} {l : Lexer} (h : l.ReadFrom src src.IsPlace) :
    (∀ ts, ((l.restore .start).tokens src).1 = .ok ts ↔ ∃ xs q, src.Pieces .start xs q ∧
      q.index = src.input.length ∧ ts = xs.filterMap src.shown?) ∧
    (∀ ts, ((l.restore .start).tokens src).1 = .ok ts → ∃ xs q, src.Pieces .start xs q ∧
      q.index = src.input.length ∧ src.Tiling xs ts q) ∧
    ∀ e, ((l.restore .start).tokens src).1 = .error e ↔ ∃ xs q, src.Pieces .start xs q ∧
      (src.scan q).accepted = none ∧ q.index < src.input.length ∧
      e = if (src.scan q).exhausted then .endOfInput (Position.start.advanceAll src.input)
        else .noToken q := by
  have hplaced : (l.restore .start).Placed src := ⟨h, src.isPlace_start⟩
  have hread : ((l.restore .start).tokens src).1 = (src.readAll .start).1 :=
    (collect_matches (src.length + 1) hplaced (Nat.lt_add_right _ (Nat.lt_succ_self _))).1
  have hall {xs : List Piece} {q : Position} (hxs : src.Pieces .start xs q)
      (hdead : (src.scan q).accepted = none) := hxs.readAll_eq src.isPlace_start hdead
  have hdead {q : Position} (hq : q.index = src.input.length) : (src.scan q).accepted = none :=
    Source.scan_accepted_of_length_le (Nat.le_of_eq (src.length_eq.trans hq.symm))
  obtain ⟨xs, q, hxs, hnone⟩ := src.exists_pieces .start
  have hle : q.index ≤ src.input.length := src.length_eq ▸ (hxs.isPlace src.isPlace_start).index_le
  rw [hread]
  have hfound (ts : List Token) (hok : (src.readAll .start).1 = .ok ts) :
      q.index = src.input.length ∧ ts = xs.filterMap src.shown? := by
    rw [hall hxs hnone] at hok
    split at hok
    · next hq => exact ⟨hq, (Except.ok.inj hok).symm⟩
    · cases hok
  refine ⟨fun ts => ⟨fun hok => ⟨xs, q, hxs, hfound ts hok⟩, ?_⟩, fun ts hok => ?_,
    fun e => ⟨fun herror => ?_, ?_⟩⟩
  · rintro ⟨xs', q', hxs', hq, rfl⟩
    rw [hall hxs' (hdead hq), if_pos hq]
  · obtain ⟨hq, rfl⟩ := hfound ts hok
    exact ⟨xs, q, hxs, hq, hxs.tiling hq⟩
  · rw [hall hxs hnone] at herror
    split at herror
    · cases herror
    · next hq =>
        exact ⟨xs, q, hxs, hnone, Nat.lt_of_le_of_ne hle hq, (Except.error.inj herror).symm⟩
  · rintro ⟨xs', q', hxs', hnone', hlt, rfl⟩
    rw [hall hxs' hnone', if_neg (Nat.ne_of_lt hlt)]
    rfl

/-- Two arrows are read, and the space before and between them is not lost. -/
theorem Lexer.tokens_tile_arrows : ∃ ts xs q,
    ((Lexer.restore {} .start).tokens (Samples.arrows " -> ->")).1 = .ok ts ∧
      ts.map (·.text) = ["->", "->"] ∧ (Samples.arrows " -> ->").Tiling xs ts q := by
  have hfresh : Lexer.ReadFrom (Samples.arrows " -> ->") (Samples.arrows " -> ->").IsPlace {} :=
    readFrom_empty
  obtain ⟨-, htiles, -⟩ := tokens_tile hfresh
  have hread : ∃ ts, ((Lexer.restore {} .start).tokens (Samples.arrows " -> ->")).1 = .ok ts ∧
      ts.map (·.text) = ["->", "->"] := by
    have htexts : (((Lexer.restore {} .start).tokens (Samples.arrows " -> ->")).1.toOption.map
        fun ts => ts.map (·.text)) = some ["->", "->"] := by decide +kernel
    obtain ⟨ts, hts, htext⟩ := Option.map_eq_some_iff.mp htexts
    exact ⟨ts, ok_of_toOption hts, htext⟩
  obtain ⟨ts, hok, htext⟩ := hread
  obtain ⟨xs, q, -, -, htiling⟩ := htiles ts hok
  exact ⟨ts, xs, q, hok, htext, htiling⟩

end Multipath
