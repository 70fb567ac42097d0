import Multipath.Lexer.Basic

/-!
The places of a text and the chain of tokens on it. A place is reached from the start over some
of the characters, so its index fixes its line and column, and reading a token at a place leads
to a place again. What a lexer remembers was read somewhere; as long as it is only moved to
places, it answers as if it read afresh. Main statement: all tokens are found exactly when the
chain of tokens leads to where only ignored text is left.
-/

namespace Multipath

theorem Position.advanceAll_append (p : Position) (cs ds : List Char) :
    p.advanceAll (cs ++ ds) = (p.advanceAll cs).advanceAll ds := List.foldl_append

theorem Scan.feed_stop (a : Automaton) (m : Match) (cs : List Char) (p : Position)
    (states : Automaton.StateSet) (accepted : Option Match)
    (h : (feed a cs p states accepted).accepted = some m) :
    accepted = some m ∨ ∃ matched, matched <+: cs ∧ m.stop = p.advanceAll matched := by
  induction cs generalizing p states accepted with
  | nil => exact .inl h
  | cons c cs ih =>
      unfold feed at h
      split at h
      · exact .inl h
      · obtain e | ⟨matched, hpre, hstop⟩ := ih _ _ _ h
        · split at e
          · cases e
            exact .inr ⟨[c], ⟨cs, rfl⟩, rfl⟩
          · exact .inl e
        · exact .inr ⟨c :: matched, (List.prefix_cons_inj c).mpr hpre, hstop⟩

namespace Source

/-- Reached from the start of the text over some of its characters. -/
def IsPlace (src : Source) (p : Position) : Prop :=
  ∃ before, before <+: src.input ∧ p = Position.start.advanceAll before

theorem isPlace_start (src : Source) : src.IsPlace .start := ⟨[], List.nil_prefix, rfl⟩

theorem index_start_advanceAll (cs : List Char) :
    (Position.start.advanceAll cs).index = cs.length := by
  simp [Position.start]

theorem IsPlace.index_le {src : Source} {p : Position} (h : src.IsPlace p) :
    p.index ≤ src.length := by
  obtain ⟨before, hpre, rfl⟩ := h
  rw [index_start_advanceAll, length_eq]
  exact hpre.length_le

theorem IsPlace.eq_of_index {src : Source} {p q : Position} (hp : src.IsPlace p)
    (hq : src.IsPlace q) (h : p.index = q.index) : p = q := by
  obtain ⟨before, hpre, rfl⟩ := hp
  obtain ⟨before', hpre', rfl⟩ := hq
  simp only [index_start_advanceAll] at h
  have he : before = before' :=
    (List.prefix_of_prefix_length_le hpre hpre' (Nat.le_of_eq h)).eq_of_length h
  rw [he]

theorem IsPlace.of_scan {src : Source} {p : Position} {m : Match} (hp : src.IsPlace p)
    (h : (src.scan p).accepted = some m) : src.IsPlace m.stop := by
  obtain ⟨before, ⟨rest, hrest⟩, rfl⟩ := hp
  obtain e | ⟨matched, hpre, hstop⟩ := Scan.feed_stop _ _ _ _ _ _ h
  · cases e
  · rw [rest_eq, index_start_advanceAll, ← hrest, List.drop_left] at hpre
    refine ⟨before ++ matched, ?_, by rw [hstop, Position.advanceAll_append]⟩
    rw [← hrest]
    exact (List.prefix_append_right_inj before).mpr hpre

theorem IsPlace.of_token {src : Source} {p : Position} {t : Token} (hp : src.IsPlace p)
    (h : src.token p = .ok t) : src.IsPlace t.span.stop := by
  fun_induction src.token p with
  | case1 p m hm visible _ ih => exact ih (hp.of_scan hm) h
  | case2 p m hm visible _ =>
      cases h
      exact hp.of_scan hm
  | case3 => cases h
  | case4 => cases h

section Looking
variable {src : Source} {p : Position} {m : Match}

theorem token_of_accepted (h : (src.scan p).accepted = some m) :
    src.token p = if (m.tags \ src.ignored).isEmpty then src.token m.stop
      else .ok ⟨m.tags \ src.ignored, ⟨p, m.stop⟩, src.text ⟨p, m.stop⟩⟩ := by
  rw [token]
  split
  · next m' hm' =>
      obtain rfl := Option.some.inj (h.symm.trans hm')
      rfl
  · next hm' => cases h.symm.trans hm'

theorem token_of_not_accepted (h : (src.scan p).accepted = none) :
    src.token p = if (src.scan p).exhausted || src.length ≤ p.index then
        .error (.endOfInput (p.advanceAll (src.rest p.index)))
      else .error (.noToken p) := by
  rw [token]
  split
  · next hm' => cases h.symm.trans hm'
  · rfl

theorem skipIgnored_of_accepted (h : (src.scan p).accepted = some m) :
    src.skipIgnored p = if m.tags.isSubset src.ignored then src.skipIgnored m.stop else p := by
  rw [skipIgnored]
  split
  · next m' hm' =>
      obtain rfl := Option.some.inj (h.symm.trans hm')
      rfl
  · next hm' => cases h.symm.trans hm'

theorem skipIgnored_of_not_accepted (h : (src.scan p).accepted = none) :
    src.skipIgnored p = p := by
  rw [skipIgnored]
  split
  · next hm' => cases h.symm.trans hm'
  · rfl

end Looking

theorem scan_accepted_of_length_le {src : Source} {p : Position} (h : src.length ≤ p.index) :
    (src.scan p).accepted = none := by
  cases hm : (src.scan p).accepted with
  | none => rfl
  | some m =>
      have := scan_accepted hm
      omega

theorem atEnd_of_length_le {src : Source} {p : Position} (h : src.length ≤ p.index) :
    src.atEnd p = true := by
  have hs := skipIgnored_of_not_accepted (scan_accepted_of_length_le h)
  simpa [atEnd, hs] using h

/-- A match has no visible tag exactly when all its tags are ignored. -/
theorem isEmpty_visible_iff (tags ignored : TagSet) :
    (tags \ ignored).isEmpty = true ↔ tags.isSubset ignored = true := by
  rw [SortedSet.isSubset_iff, Std.ExtTreeSet.isEmpty_diff_iff]

theorem token_of_atEnd {src : Source} {p : Position} (h : src.atEnd p = true) :
    ∃ e, src.token p = .error e ∧ e.isEndOfInput = true := by
  have hlen : src.length ≤ (src.skipIgnored p).index := by simpa [atEnd] using h
  clear h
  fun_induction src.skipIgnored p with
  | case1 p m hm hsub ih =>
      obtain ⟨e, he, hend⟩ := ih hlen
      refine ⟨e, ?_, hend⟩
      rw [token_of_accepted hm, if_pos ((isEmpty_visible_iff _ _).mpr hsub), he]
  | case2 p m hm _ =>
      have := scan_accepted hm
      omega
  | case3 p hm =>
      refine ⟨.endOfInput (p.advanceAll (src.rest p.index)), ?_, rfl⟩
      rw [token_of_not_accepted hm, if_pos (by simp [hlen])]

/-- The tokens read one after the other from one position to another. -/
inductive Chain (src : Source) : Position → List Token → Position → Prop
  | nil {p} : Chain src p [] p
  | cons {p t ts q} : src.token p = .ok t → Chain src t.span.stop ts q → Chain src p (t :: ts) q

namespace Chain

variable {src : Source} {p q r : Position} {ts us : List Token}

theorem single {t : Token} (h : src.token p = .ok t) : Chain src p [t] t.span.stop := .cons h .nil

theorem append (h : Chain src p ts q) (h' : Chain src q us r) : Chain src p (ts ++ us) r := by
  induction h with
  | nil => exact h'
  | cons ht _ ih => exact .cons ht (ih h')

theorem index_add_length_le (h : Chain src p ts q) : p.index + ts.length ≤ q.index := by
  induction h with
  | nil => simp
  | cons ht _ ih =>
      have := token_stop ht
      simp only [List.length_cons]
      omega

theorem isPlace (h : Chain src p ts q) (hp : src.IsPlace p) : src.IsPlace q := by
  induction h with
  | nil => exact hp
  | cons ht _ ih => exact ih (hp.of_token ht)

/-- Between two positions there is at most one chain. -/
theorem unique (h : Chain src p ts q) (h' : Chain src p us q) : ts = us := by
  induction h generalizing us with
  | nil =>
      have := h'.index_add_length_le
      exact (List.eq_nil_of_length_eq_zero (by omega)).symm
  | @cons p t ts q ht h ih =>
      cases h' with
      | nil =>
          have := (Chain.cons ht h).index_add_length_le
          simp only [List.length_cons] at this
          omega
      | cons ht' h' =>
          obtain rfl := Except.ok.inj (ht.symm.trans ht')
          rw [ih h']

/-- A chain stops where its last token stops. -/
theorem stop_eq (h : Chain src p ts q) : q = (ts.getLast?.map (·.span.stop)).getD p := by
  induction h with
  | nil => rfl
  | @cons p t ts q _ _ ih =>
      rw [ih]
      cases ts with
      | nil => rfl
      | cons u us => simp [List.getLast?_cons]

end Chain
end Source

namespace Lexer

/-- Everything remembered was read at some position of `origin`. -/
def ReadFrom (src : Source) (origin : Position → Prop) (l : Lexer) : Prop :=
  ∀ (i : Nat) (result : Except LexicalError Token), l.cache[i]? = some result →
    ∃ p, origin p ∧ p.index = i ∧ src.token p = result

variable {src : Source} {origin : Position → Prop} {l : Lexer}

theorem readFrom_empty : ReadFrom src origin {} := by
  intro i result h
  simp at h

/-- What one reading does to the memory and where it leaves the lexer. -/
structure ReadOnce (src : Source) (origin : Position → Prop) (l : Lexer) : Prop where
  remembered : (l.next src).2.cache[l.position.index]? = some (l.next src).1
  kept : ∀ (i : Nat) (result : Except LexicalError Token),
    l.cache[i]? = some result → (l.next src).2.cache[i]? = some result
  readFrom : ReadFrom src origin (l.next src).2
  position : (l.next src).2.position =
    match (l.next src).1 with
    | .ok t => t.span.stop
    | .error _ => l.position

theorem lookup_spec (h : ReadFrom src origin l) (ho : origin l.position) :
    (l.lookup src).2.cache[l.position.index]? = some (l.lookup src).1 ∧
      (∀ (i : Nat) (result : Except LexicalError Token),
        l.cache[i]? = some result → (l.lookup src).2.cache[i]? = some result) ∧
      ReadFrom src origin (l.lookup src).2 ∧ (l.lookup src).2.position = l.position := by
  unfold lookup
  split
  · next result hc => exact ⟨hc, fun _ _ hi => hi, h, rfl⟩
  · next hc =>
      have hget (i : Nat) : (l.cache.insert l.position.index (src.token l.position))[i]? =
          if i = l.position.index then some (src.token l.position) else l.cache[i]? := by
        rw [Std.TreeMap.getElem?_insert]
        simp only [Nat.compare_eq_eq, @eq_comm _ i]
      refine ⟨by simp, ?_, ?_, rfl⟩
      · intro i result hi
        rw [hget, if_neg]
        · exact hi
        · intro heq
          obtain rfl := heq
          cases hc.symm.trans hi
      · intro i result hi
        simp only [hget] at hi
        split at hi
        · next heq => exact ⟨l.position, ho, heq.symm, Option.some.inj hi⟩
        · exact h i result hi

theorem next_spec (h : ReadFrom src origin l) (ho : origin l.position) :
    ReadOnce src origin l := by
  obtain ⟨hmem, hkept, hfrom, hpos⟩ := lookup_spec h ho
  rcases hl : l.lookup src with ⟨e | t, l'⟩
  · have hnext : l.next src = (.error e, l') := by rw [next, hl]
    rw [hl] at hmem hkept hfrom hpos
    exact ⟨by rw [hnext]; exact hmem, by rw [hnext]; exact hkept, by rw [hnext]; exact hfrom,
      by rw [hnext]; exact hpos⟩
  · have hnext : l.next src = (.ok t, l'.restore t.span.stop) := by rw [next, hl]
    rw [hl] at hmem hkept hfrom
    exact ⟨by rw [hnext]; exact hmem, by rw [hnext]; exact hkept, by rw [hnext]; exact hfrom,
      by rw [hnext]; rfl⟩

/-- At a place, remembering makes no difference. -/
theorem next_eq_token (h : ReadFrom src src.IsPlace l) (hp : src.IsPlace l.position) :
    (l.next src).1 = src.token l.position := by
  have hn := next_spec h hp
  obtain ⟨p, hp', hi, ht⟩ := hn.readFrom _ _ hn.remembered
  rw [← ht, hp'.eq_of_index hp hi]

theorem collect_eq_ok_iff (n : Nat) (l : Lexer) (ts : List Token)
    (h : ReadFrom src src.IsPlace l) (hp : src.IsPlace l.position)
    (hn : src.length < n + l.position.index) :
    (l.collect src n).1 = .ok ts ↔ ∃ q, src.Chain l.position ts q ∧ src.atEnd q = true := by
  induction n generalizing l ts with
  | zero =>
      have := hp.index_le
      omega
  | succ n ih =>
      have once := next_spec h hp
      have hread := next_eq_token h hp
      rcases hnext : l.next src with ⟨e | t, l'⟩
      · have hpos : l'.position = l.position := by simpa [hnext] using once.position
        have herr : src.token l.position = .error e := by rw [← hread, hnext]
        have hcollect : (l.collect src (n + 1)).1 =
            if e.isEndOfInput && src.atEnd l.position then .ok [] else .error e := by
          rw [collect, hnext]
          simp only [hpos]
        rw [hcollect]
        constructor
        · intro hok
          split at hok
          · next hend =>
              cases hok
              exact ⟨l.position, .nil, by simp_all⟩
          · cases hok
        · intro h
          obtain ⟨q, hchain, hend⟩ := h
          cases hchain with
          | nil =>
              obtain ⟨e', he', hend'⟩ := Source.token_of_atEnd hend
              obtain rfl := Except.error.inj (herr.symm.trans he')
              simp [hend, hend']
          | cons ht _ => cases herr.symm.trans ht
      · have hpos : l'.position = t.span.stop := by simpa [hnext] using once.position
        have htok : src.token l.position = .ok t := by rw [← hread, hnext]
        have hcollect : (l.collect src (n + 1)).1 = (l'.collect src n).1.map (t :: ·) := by
          rw [collect, hnext]
        have hstop := Source.token_stop htok
        have hih := fun us => ih l' us (by simpa [hnext] using once.readFrom)
          (by rw [hpos]; exact hp.of_token htok) (by rw [hpos]; omega)
        rw [hpos] at hih
        rw [hcollect]
        constructor
        · intro hok
          cases hrest : (l'.collect src n).1 with
          | error e => rw [hrest] at hok; cases hok
          | ok us =>
              rw [hrest] at hok
              cases hok
              obtain ⟨q, hchain, hend⟩ := (hih us).mp hrest
              exact ⟨q, .cons htok hchain, hend⟩
        · intro h
          obtain ⟨q, hchain, hend⟩ := h
          cases hchain with
          | nil =>
              obtain ⟨e, he, _⟩ := Source.token_of_atEnd hend
              cases htok.symm.trans he
          | @cons _ t' us _ ht hchain =>
              obtain rfl := Except.ok.inj (htok.symm.trans ht)
              rw [(hih us).mpr ⟨q, hchain, hend⟩]
              rfl

/-- All tokens are found exactly when they lead to where only ignored text is left. -/
theorem tokens_eq_ok_iff (ts : List Token) (h : ReadFrom src src.IsPlace l)
    (hp : src.IsPlace l.position) :
    (l.tokens src).1 = .ok ts ↔ ∃ q, src.Chain l.position ts q ∧ src.atEnd q = true :=
  collect_eq_ok_iff _ _ _ h hp (by omega)

end Lexer
end Multipath
