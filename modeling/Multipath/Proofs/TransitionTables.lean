import Multipath.Proofs.LongestMatch
import Multipath.Samples

/-!
Longest match against the table of transitions. Read off the table alone, the open start states are
followed over one character after the other, with nothing put aside and no end but that of the text
(`Automaton.statesAfter`). A scan stops early where no state is left, takes the accept marker out of
the active states at every step and keeps only the tags of the last end it passes; still it finds
the furthest end that the table allows, with the tags of that very step (`Source.scan_follows`).
-/

namespace Multipath

open Automaton (StateId StateSet Transition accept)

namespace Automaton

/-- The transition leads over the character from one of the states. -/
def Takes (table : List Transition) (states : StateId → Prop) (c : Char) (t : Transition) : Prop :=
  t ∈ table ∧ t.source ≠ accept ∧ states t.source ∧ t.label.accepts c = true

/-- Some transition that is taken leads to the state. -/
def Next (table : List Transition) (states : StateId → Prop) (c : Char) (s : StateId) : Prop :=
  ∃ t, Takes table states c t ∧ s ∈ t.targets

/-- Some transition that is taken asserts the tag, and none retracts it. -/
def Tags (table : List Transition) (states : StateId → Prop) (c : Char) (id : TagId) : Prop :=
  (∃ t, Takes table states c t ∧ id ∈ t.asserts) ∧ ∀ t, Takes table states c t → id ∉ t.retracts

/-- The states after the first `k` characters. -/
def statesAfter (table : List Transition) (starts : StateId → Prop) (cs : List Char) :
    Nat → StateId → Prop
  | 0, s => starts s
  | k + 1, s => ∃ c, cs[k]? = some c ∧ Next table (statesAfter table starts cs k) c s

/-- The tags of the last step over the first `k` characters. -/
def tagsAfter (table : List Transition) (starts : StateId → Prop) (cs : List Char) :
    Nat → TagId → Prop
  | 0, _ => False
  | k + 1, id => ∃ c, cs[k]? = some c ∧ Tags table (statesAfter table starts cs k) c id

section Following
variable {table : List Transition} {starts : StateId → Prop} {c : Char} {cs : List Char}

/-- The first character may be followed on its own. -/
theorem statesAfter_cons (k : Nat) : statesAfter table starts (c :: cs) (k + 1) =
    statesAfter table (Next table starts c) cs k := by
  induction k with
  | zero =>
      funext s
      simp [statesAfter]
  | succ k ih =>
      funext s
      rw [statesAfter, ih]
      rfl

theorem tagsAfter_cons (k : Nat) : tagsAfter table starts (c :: cs) (k + 2) =
    tagsAfter table (Next table starts c) cs (k + 1) := by
  funext id
  rw [tagsAfter, statesAfter_cons]
  rfl

theorem tagsAfter_one : tagsAfter table starts (c :: cs) 1 = Tags table starts c := by
  simp [funext_iff, tagsAfter, statesAfter]

end Following

variable {a : Automaton} {states : StateSet} {follows : StateId → Prop} {c : Char} {cs : List Char}

/-- The same states are active, the marker apart, from which nothing leads on. -/
def Tracks (states : StateSet) (follows : StateId → Prop) : Prop :=
  ∀ s, s ≠ accept → (s ∈ states ↔ follows s)

theorem Tracks.mem_fired_iff (h : Tracks states follows) {t : Transition} :
    t ∈ a.fired c states ↔ Takes a.transitions follows c t := by
  simp only [fired, Takes, List.mem_filter, Bool.and_eq_true, decide_eq_true_eq]
  constructor
  · rintro ⟨ht, ⟨hsource, hactive⟩, hlabel⟩
    exact ⟨ht, hsource, (h _ hsource).mp hactive, hlabel⟩
  · rintro ⟨ht, hsource, hactive, hlabel⟩
    exact ⟨ht, ⟨hsource, (h _ hsource).mpr hactive⟩, hlabel⟩

theorem Tracks.mem_next_iff (h : Tracks states follows) (s : StateId) :
    s ∈ (a.step c states).next ↔ Next a.transitions follows c s := by
  simp only [mem_step_next, h.mem_fired_iff, Next]

theorem Tracks.mem_tags_iff (h : Tracks states follows) (id : TagId) :
    id ∈ (a.step c states).tags ↔ Tags a.transitions follows c id := by
  simp only [mem_step_tags, h.mem_fired_iff, Tags]

theorem Tracks.mem_goOn_iff (h : Tracks states follows) (s : StateId) :
    s ∈ a.goOn c states ↔ Next a.transitions follows c s ∧ s ≠ accept := by
  rw [goOn, SortedSet.mem_erase, h.mem_next_iff]

theorem Tracks.goOn (h : Tracks states follows) :
    Tracks (a.goOn c states) (Next a.transitions follows c) :=
  fun s hs => by rw [h.mem_goOn_iff, and_iff_left hs]

/-- The verdict on the first characters is what the table says of them. -/
theorem Tracks.verdict_take (h : Tracks states follows) (k : Nat) (hk : k < cs.length) :
    ((a.verdict states (cs.take (k + 1))).isSome ↔
      statesAfter a.transitions follows cs (k + 1) accept) ∧
    ∀ tags, a.verdict states (cs.take (k + 1)) = some tags →
      ∀ id, id ∈ tags ↔ tagsAfter a.transitions follows cs (k + 1) id := by
  induction k generalizing cs states follows with
  | zero =>
      obtain ⟨c, cs, rfl⟩ := List.exists_cons_of_length_pos hk
      rw [statesAfter_cons, tagsAfter_one, List.take_succ_cons, List.take_zero, verdict]
      split
      · next haccept =>
          refine ⟨iff_of_true rfl ((h.mem_next_iff accept).mp haccept), ?_⟩
          rintro _ ⟨⟩ id
          exact h.mem_tags_iff id
      · next haccept =>
          refine ⟨iff_of_false Bool.false_ne_true fun hnext => ?_, fun _ heq => by cases heq⟩
          exact haccept ((h.mem_next_iff accept).mpr hnext)
  | succ k ih =>
      obtain ⟨c, cs, rfl⟩ := List.exists_cons_of_length_pos (Nat.zero_lt_of_lt hk)
      have hk : k < cs.length := Nat.lt_of_succ_lt_succ hk
      have hne : cs.take (k + 1) ≠ [] := by
        rw [← List.length_pos_iff, List.length_take]
        omega
      rw [statesAfter_cons, tagsAfter_cons, List.take_succ_cons, verdict_goOn hne]
      exact ih h.goOn hk

end Automaton

/-- The text ends before the states do, if some state other than the marker is left after any number
of characters. -/
theorem Scan.feed_exhausted_iff {a : Automaton} (cs : List Char) (p : Position)
    (states : StateSet) (found : Option Match) {follows : StateId → Prop}
    (h : ∀ s, s ∈ states ↔ follows s ∧ s ≠ accept) :
    (feed a cs p states found).exhausted = true ↔
      ∀ k ≤ cs.length, ∃ s, Automaton.statesAfter a.transitions follows cs k s ∧ s ≠ accept := by
  have htracks : Automaton.Tracks states follows := fun s hs => by rw [h, and_iff_left hs]
  have hsome : states ≠ ∅ ↔ ∃ s, follows s ∧ s ≠ accept := by
    rw [SortedSet.ne_empty_iff]
    exact exists_congr h
  induction cs generalizing p states found follows with
  | nil => simpa [feed, Automaton.statesAfter] using hsome
  | cons c cs ih =>
      unfold feed
      split
      · next hempty =>
          refine iff_of_false nofun fun hall => hsome.mpr (hall 0 (Nat.zero_le _)) ?_
          exact Std.ExtTreeSet.isEmpty_iff.mp hempty
      · next hempty =>
          have hnext (s : StateId) := htracks.mem_goOn_iff (a := a) (c := c) s
          have hnextSome : a.goOn c states ≠ ∅ ↔ _ :=
            SortedSet.ne_empty_iff.trans (exists_congr hnext)
          refine (ih _ _ _ hnext htracks.goOn hnextSome).trans
            ⟨fun hall k hk => ?_, fun hall k hk => ?_⟩
          · cases k with
            | zero => exact hsome.mp fun he => hempty (Std.ExtTreeSet.isEmpty_iff.mpr he)
            | succ k =>
                rw [Automaton.statesAfter_cons]
                exact hall k (Nat.le_of_succ_le_succ hk)
          · have hmore := hall (k + 1) (Nat.succ_le_succ hk)
            rwa [Automaton.statesAfter_cons] at hmore

/-- The state is one that some tag starts from under the conditions. -/
def Lexicon.Opens (l : Lexicon) (conditions : Conditions) (s : StateId) : Prop :=
  ∃ tag ∈ l.tags, ∃ o ∈ tag.openings, o.gate.holds conditions = true ∧ s ∈ o.states

theorem Lexicon.mem_startStates_iff_opens {l : Lexicon} {conditions : Conditions} {s : StateId} :
    s ∈ l.startStates conditions ↔ l.Opens conditions s := by
  simp only [startStates, Tag.startStates, Opens, SortedSet.mem_ofList, List.mem_flatMap,
    List.mem_filter, and_assoc]

namespace Source

/-- The states after `k` characters from a position on, by the table of the lexicon. -/
def statesFrom (src : Source) (p : Position) : Nat → StateId → Prop :=
  Automaton.statesAfter src.lexicon.automaton.transitions (src.lexicon.Opens src.conditions)
    (src.input.drop p.index)

def tagsFrom (src : Source) (p : Position) : Nat → TagId → Prop :=
  Automaton.tagsAfter src.lexicon.automaton.transitions (src.lexicon.Opens src.conditions)
    (src.input.drop p.index)

/-- A match from a position on may end behind `k` characters. -/
def MayEnd (src : Source) (p : Position) (k : Nat) : Prop :=
  1 ≤ k ∧ k ≤ (src.input.drop p.index).length ∧ src.statesFrom p k accept

variable {src : Source} {p : Position}

theorem starts_tracks (src : Source) :
    Automaton.Tracks src.starts (src.lexicon.Opens src.conditions) := by
  intro s _
  rw [src.starts_eq]
  exact Lexicon.mem_startStates_iff_opens

theorem mayEnd_iff {k : Nat} : src.MayEnd p k ↔ k ≤ (src.input.drop p.index).length ∧
    (src.lexicon.automaton.verdict src.starts ((src.input.drop p.index).take k)).isSome := by
  cases k with
  | zero => exact iff_of_false (fun h => Nat.not_succ_le_zero 0 h.1) fun h => nomatch h.2
  | succ k =>
      rw [MayEnd, and_iff_right (Nat.le_add_left 1 k)]
      exact and_congr_right fun hk => ((starts_tracks src).verdict_take k hk).1.symm

/-- A match is the longest that the table allows. -/
theorem mayEnd_of_accepted {m : Match} (h : (src.scan p).accepted = some m) :
    ∃ k, src.MayEnd p k ∧ (∀ j, src.MayEnd p j → j ≤ k) ∧
      m.stop = p.advanceAll ((src.input.drop p.index).take k) ∧
        ∀ id, id ∈ m.tags ↔ src.tagsFrom p k id := by
  obtain ⟨w, hlongest, hverdict, hstop⟩ := scan_accepted_iff.mp h
  rw [rest_eq] at hlongest
  have hw : w = (src.input.drop p.index).take w.length :=
    List.prefix_iff_eq_take.mp hlongest.isPrefix
  have hmay : src.MayEnd p w.length := by
    rw [mayEnd_iff, ← hw]
    exact ⟨hlongest.isPrefix.length_le, hlongest.isKind⟩
  refine ⟨w.length, hmay, fun j hj => ?_, by rw [← hw]; exact hstop, ?_⟩
  · obtain ⟨hle, hkind⟩ := mayEnd_iff.mp hj
    have hlength := hlongest.length_le _ (List.take_prefix _ _) hkind
    rwa [List.length_take, Nat.min_eq_left hle] at hlength
  · obtain ⟨k, hk⟩ : ∃ k, w.length = k + 1 := Nat.exists_eq_succ_of_ne_zero (Nat.ne_of_gt hmay.1)
    rw [hk] at hw hmay ⊢
    rw [hw] at hverdict
    exact ((starts_tracks src).verdict_take k hmay.2.1).2 m.tags hverdict

/-- Scanning against the raw table. A match is found just when the marker is among the states after
some number of characters; it ends behind the greatest such number, and its tags are those of the
step that leads there. The text is used up just when after no number of characters, up to all that
are left, the marker stands alone or nothing is left, provided it is no start state itself. -/
theorem scan_follows (src : Source) (p : Position) :
    ((src.scan p).accepted.isSome ↔ ∃ k, src.MayEnd p k) ∧
    (∀ m, (src.scan p).accepted = some m → ∃ k, src.MayEnd p k ∧ (∀ j, src.MayEnd p j → j ≤ k) ∧
      m.stop = p.advanceAll ((src.input.drop p.index).take k) ∧
        ∀ id, id ∈ m.tags ↔ src.tagsFrom p k id) ∧
    (¬src.lexicon.Opens src.conditions accept → ((src.scan p).exhausted = true ↔
      ∀ k ≤ (src.input.drop p.index).length, ∃ s, src.statesFrom p k s ∧ s ≠ accept)) := by
  refine ⟨⟨fun h => ?_, fun h => ?_⟩, fun m => mayEnd_of_accepted, fun hmarker => ?_⟩
  · obtain ⟨m, hm⟩ := Option.isSome_iff_exists.mp h
    obtain ⟨k, hk, -⟩ := mayEnd_of_accepted hm
    exact ⟨k, hk⟩
  · obtain ⟨k, hk⟩ := h
    rw [scan_accepted_isSome_iff, rest_eq]
    exact ⟨_, List.take_prefix k _, (mayEnd_iff.mp hk).2⟩
  · rw [scan, rest_eq]
    refine Scan.feed_exhausted_iff _ p src.starts none fun s => ?_
    rw [src.starts_eq, Lexicon.mem_startStates_iff_opens]
    refine ⟨fun hs => ⟨hs, ?_⟩, And.left⟩
    rintro rfl
    exact hmarker hs

end Source

/-- One `a`, or an `a` that goes on with `b` and `c`. -/
def Samples.resuming (text : String) : Source :=
  .ofText
    { tags := [{ name := "A", openings := [⟨.always, [1]⟩] }, { name := "Abc" }]
      automaton := ⟨[⟨1, .char 'a', [accept, 2], [0], []⟩, ⟨2, .char 'b', [3], [], []⟩,
        ⟨3, .char 'c', [accept], [1], [0]⟩]⟩ } ∅ text ""

/-- Where the text ends on the way from one end to the next, the match stays at the first, and the
text was used up. -/
theorem Source.scan_follows_resuming :
    ¬(Samples.resuming "ab").lexicon.Opens (Samples.resuming "ab").conditions accept ∧
      (∃ m, ((Samples.resuming "ab").scan .start).accepted = some m ∧
        ∃ k, (Samples.resuming "ab").MayEnd .start k ∧
          m.stop = Position.start.advanceAll (['a', 'b'].take k)) ∧
      ∀ k ≤ 2, ∃ s, (Samples.resuming "ab").statesFrom .start k s ∧ s ≠ accept := by
  have hmarker : ¬(Samples.resuming "ab").lexicon.Opens (Samples.resuming "ab").conditions
      accept := by
    simp [Samples.resuming, Source.ofText, Lexicon.Opens, accept]
  have hfound : ((Samples.resuming "ab").scan .start).accepted.isSome = true := by decide +kernel
  have hexhausted : ((Samples.resuming "ab").scan .start).exhausted = true := by decide +kernel
  obtain ⟨-, hmatch, hall⟩ := scan_follows (Samples.resuming "ab") .start
  obtain ⟨m, hm⟩ := Option.isSome_iff_exists.mp hfound
  obtain ⟨k, hk, -, hstop, -⟩ := hmatch m hm
  exact ⟨hmarker, ⟨m, hm, k, hk, hstop⟩, (hall hmarker).mp hexhausted⟩

end Multipath
