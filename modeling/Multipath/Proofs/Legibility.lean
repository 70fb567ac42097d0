import Mathlib.Data.List.Basic

/-!
Texts that can be read back. How things are written is told by a script: the text of each thing,
what that text is to show of it, which things are written so and what may come behind. A thing is
legible if nothing of the same kind is written in the same way, up to what is to be shown, whatever
comes behind either; so its text ends at one place only. Lists of legible things are legible where
a separator tells whether another one follows (`Script.intercalate_legible`), and so are texts in
which some characters are escaped (`Escapes.Sound.read_quoted`).
-/

namespace Multipath

/-- Things of one kind in front of the first that is none are told by the whole. -/
theorem append_inj_of_head {α : Type} (kind : α → Prop) {xs ys s t : List α}
    (hxs : ∀ x ∈ xs, kind x) (hys : ∀ y ∈ ys, kind y) (hs : ∀ x ∈ s.head?, ¬kind x)
    (ht : ∀ x ∈ t.head?, ¬kind x) (h : xs ++ s = ys ++ t) : xs = ys ∧ s = t := by
  induction xs generalizing ys with
  | nil =>
      cases ys with
      | nil => exact ⟨rfl, h⟩
      | cons y ys =>
          have hy : ¬kind y := hs y (by simp only [List.nil_append] at h; simp [h])
          exact absurd (hys y List.mem_cons_self) hy
  | cons x xs ih =>
      cases ys with
      | nil =>
          have hx : ¬kind x := ht x (by simp only [List.nil_append] at h; simp [← h])
          exact absurd (hxs x List.mem_cons_self) hx
      | cons y ys =>
          simp only [List.cons_append, List.cons.injEq] at h
          obtain ⟨hrest, hst⟩ := ih (fun x hx => hxs x (List.mem_cons_of_mem _ hx))
            (fun y hy => hys y (List.mem_cons_of_mem _ hy)) h.2
          exact ⟨by rw [h.1, hrest], hst⟩

/-- A way to write things, in characters or in other signs. -/
structure Script (σ α β : Type) where
  write : α → List σ
  /-- What the text of a thing is to show. -/
  shows : α → β
  /-- Which things are written. -/
  Kind : α → Prop
  /-- What may come behind a thing. -/
  Rest : List σ → Prop

namespace Script

variable {σ α β : Type} (w : Script σ α β)

/-- The text of a thing shows what it is to show, and where the text ends. -/
def Legible (x : α) : Prop :=
  ∀ y s t, w.Kind y → w.Rest s → w.Rest t → w.write x ++ s = w.write y ++ t →
    w.shows x = w.shows y ∧ s = t

/-- Comes behind the last thing of a list: there is no other one behind a separator. -/
structure Ends (sep s : List σ) : Prop where
  rest : w.Rest s
  last : ∀ y u, w.Kind y → s ≠ sep ++ (w.write y ++ u)

variable {w} {sep s t : List σ} {xs ys : List α}

theorem Legible.eq (hrest : w.Rest []) {x y : α} (hx : w.Legible x) (hy : w.Kind y)
    (h : w.write x = w.write y) : w.shows x = w.shows y :=
  (hx y [] [] hy hrest hrest (by simpa using h)).1

/-- Each thing of a list may be read behind its separator, up to where the list ends. -/
theorem flatMap_legible (hsep : ∀ y u, w.Kind y → w.Rest (sep ++ (w.write y ++ u)))
    (hxs : ∀ x ∈ xs, w.Kind x ∧ w.Legible x) (hys : ∀ y ∈ ys, w.Kind y) (hs : w.Ends sep s)
    (ht : w.Ends sep t)
    (h : xs.flatMap (fun x => sep ++ w.write x) ++ s =
      ys.flatMap (fun y => sep ++ w.write y) ++ t) :
    xs.map w.shows = ys.map w.shows ∧ s = t := by
  have hrest {zs : List α} {u : List σ} (hzs : ∀ z ∈ zs, w.Kind z) (hu : w.Ends sep u) :
      w.Rest (zs.flatMap (fun z => sep ++ w.write z) ++ u) := by
    cases zs with
    | nil => exact hu.rest
    | cons z zs => simpa using hsep z _ (hzs z List.mem_cons_self)
  induction xs generalizing ys with
  | nil =>
      cases ys with
      | nil => exact ⟨rfl, h⟩
      | cons y ys => exact absurd (by simpa using h) (hs.last y _ (hys y List.mem_cons_self))
  | cons x xs ih =>
      rw [List.forall_mem_cons] at hxs
      cases ys with
      | nil => exact absurd (by simpa using h.symm) (ht.last x _ hxs.1.1)
      | cons y ys =>
          rw [List.forall_mem_cons] at hys
          simp only [List.flatMap_cons, List.append_assoc, List.append_cancel_left_eq] at h
          obtain ⟨hfirst, h⟩ := hxs.1.2 y _ _ hys.1 (hrest (fun x hx => (hxs.2 x hx).1) hs)
            (hrest hys.2 ht) h
          obtain ⟨hothers, hst⟩ := ih hxs.2 hys.2 h
          exact ⟨by rw [List.map_cons, List.map_cons, hfirst, hothers], hst⟩

theorem intercalate_cons (sep l : List σ) (ls : List (List σ)) :
    sep.intercalate (l :: ls) = l ++ ls.flatMap (sep ++ ·) := by
  induction ls generalizing l with
  | nil => simp [List.intercalate]
  | cons l' ls ih => simp [List.intercalate_cons_cons, ih]

/-- A list that is not empty, with separators between its things. -/
theorem intercalate_legible (hsep : ∀ y u, w.Kind y → w.Rest (sep ++ (w.write y ++ u)))
    (hxs : ∀ x ∈ xs, w.Kind x ∧ w.Legible x) (hys : ∀ y ∈ ys, w.Kind y) (hs : w.Ends sep s)
    (ht : w.Ends sep t) (hx : xs ≠ []) (hy : ys ≠ [])
    (h : sep.intercalate (xs.map w.write) ++ s = sep.intercalate (ys.map w.write) ++ t) :
    xs.map w.shows = ys.map w.shows ∧ s = t := by
  cases xs with
  | nil => exact absurd rfl hx
  | cons x xs =>
      cases ys with
      | nil => exact absurd rfl hy
      | cons y ys =>
          -- with a separator in front of the first things, too, it is a list as above
          refine flatMap_legible hsep hxs hys hs ht ?_
          simpa [intercalate_cons, List.flatMap_map] using h

end Script

theorem notMem_intercalate {σ : Type} {c : σ} {sep : List σ} {ls : List (List σ)} (hsep : c ∉ sep)
    (hls : ∀ l ∈ ls, c ∉ l) : c ∉ sep.intercalate ls := by
  cases ls with
  | nil => simp [List.intercalate]
  | cons l ls =>
      rw [List.forall_mem_cons] at hls
      simp only [Script.intercalate_cons, List.mem_append, List.mem_flatMap, not_or, not_exists,
        not_and]
      exact ⟨hls.1, fun l hl => ⟨hsep, hls.2 l hl⟩⟩

/-- Lists of legible things one after the other. -/
theorem Script.join_legible {σ α β : Type} {w : Script σ α β} {xs ys : List α} {s t : List σ}
    (hrest : ∀ y u, w.Kind y → w.Rest (w.write y ++ u)) (hxs : ∀ x ∈ xs, w.Kind x ∧ w.Legible x)
    (hys : ∀ y ∈ ys, w.Kind y) (hs : w.Ends [] s) (ht : w.Ends [] t)
    (h : xs.flatMap w.write ++ s = ys.flatMap w.write ++ t) :
    xs.map w.shows = ys.map w.shows ∧ s = t :=
  flatMap_legible hrest hxs hys hs ht h

theorem digitChar_inj : ∀ m < 16, ∀ n < 16, Nat.digitChar m = Nat.digitChar n → m = n := by
  decide

/-- The digits of a number tell the number. -/
theorem toDigits_inj (base : Nat) {m n : Nat} (hbase : 1 < base) (hchars : base ≤ 16)
    (h : Nat.toDigits base m = Nat.toDigits base n) : m = n := by
  induction m using Nat.strongRecOn generalizing n with
  | ind m ih =>
      rw [Nat.toDigits_eq_if hbase, Nat.toDigits_eq_if hbase (n := n)] at h
      split_ifs at h with hm hn hn
      · exact digitChar_inj m (by omega) n (by omega) (List.cons.inj h).1
      · have h : [] ++ [m.digitChar] = _ := h
        exact absurd (List.append_inj' h rfl).1.symm Nat.toDigits_ne_nil
      · have h : _ = [] ++ [n.digitChar] := h
        exact absurd (List.append_inj' h rfl).1 Nat.toDigits_ne_nil
      · have hlast := Nat.mod_lt m (y := base) (by omega)
        have hlast' := Nat.mod_lt n (y := base) (by omega)
        obtain ⟨hfront, hdigit⟩ := List.append_inj' h rfl
        have hdiv := ih (m / base) (Nat.div_lt_self (by omega) hbase) hfront
        have hmod := digitChar_inj _ (by omega) _ (by omega) (List.cons.inj hdigit).1
        rw [← Nat.div_add_mod m base, hdiv, hmod, Nat.div_add_mod]

theorem digitChar_of_mem_toDigits {base n : Nat} {c : Char} (hbase : 1 < base)
    (hc : c ∈ Nat.toDigits base n) : ∃ d < base, c = Nat.digitChar d := by
  induction n using Nat.strongRecOn with
  | ind n ih =>
      rw [Nat.toDigits_eq_if hbase] at hc
      split_ifs at hc with hn
      · exact ⟨n, hn, List.mem_singleton.mp hc⟩
      · rw [List.mem_append, List.mem_singleton] at hc
        cases hc with
        | inl hc => exact ih (n / base) (Nat.div_lt_self (by omega) hbase) hc
        | inr hc => exact ⟨n % base, Nat.mod_lt n (by omega), hc⟩

/-- How characters are escaped in quoted text. -/
structure Escapes where
  /-- Characters that have a letter of their own. -/
  letters : List (Char × Char)
  /-- The characters written by their codes, and these. -/
  Coded : Char → Prop
  code : Char → List Char

namespace Escapes

variable (e : Escapes)

/-- What is written for a character: the character itself, a letter behind a backslash, or its code
behind a backslash and the letter `u`. -/
inductive Writes (c : Char) : List Char → Prop
  | plain : c ≠ '\\' → c ≠ '"' → Writes c [c]
  | letter {l} : (c, l) ∈ e.letters → Writes c ['\\', l]
  | coded : e.Coded c → Writes c ('\\' :: 'u' :: e.code c)

/-- No letter stands for two characters or for a code, and codes can be read. -/
structure Sound : Prop where
  letter : ∀ x ∈ e.letters, ∀ y ∈ e.letters, x.2 = y.2 → x.1 = y.1
  notCode : ∀ x ∈ e.letters, x.2 ≠ 'u'
  code : ∀ c d s t, e.Coded c → e.Coded d → e.code c ++ s = e.code d ++ t → c = d ∧ s = t

variable {e}

/-- An escaped character is read back, whatever comes behind it. -/
theorem Sound.read (hsound : e.Sound) {c d : Char} {cs ds s t : List Char} (hc : e.Writes c cs)
    (hd : e.Writes d ds) (h : cs ++ s = ds ++ t) : c = d ∧ s = t := by
  cases hc with
  | plain hc hc' =>
      cases hd with
      | plain => simpa using h
      | letter _ | coded _ => exact absurd (List.cons.inj h).1 hc
  | letter hl =>
      cases hd with
      | plain hd _ => exact absurd (List.cons.inj h).1.symm hd
      | letter hl' =>
          simp only [List.cons_append, List.nil_append, List.cons.injEq, true_and] at h
          exact ⟨hsound.letter _ hl _ hl' h.1, h.2⟩
      | coded _ =>
          simp only [List.cons_append, List.cons.injEq, true_and] at h
          exact absurd h.1 (hsound.notCode _ hl)
  | coded hc =>
      cases hd with
      | plain hd _ => exact absurd (List.cons.inj h).1.symm hd
      | letter hl =>
          simp only [List.cons_append, List.cons.injEq, true_and] at h
          exact absurd h.1.symm (hsound.notCode _ hl)
      | coded hd =>
          simp only [List.cons_append, List.cons.injEq, true_and] at h
          exact hsound.code c d s t hc hd h

/-- No escaped character begins with a quote. -/
theorem Writes.ne_quote {c : Char} {cs : List Char} (h : e.Writes c cs) (s t : List Char) :
    '"' :: s ≠ cs ++ t := by
  cases h with
  | plain _ hc => exact fun h => hc (List.cons.inj h).1.symm
  | letter _ | coded _ => simp

/-- Characters that are escaped one by one, between quotes. -/
theorem Sound.read_quoted (hsound : e.Sound) {escape : Char → List Char}
    (hescape : ∀ c, e.Writes c (escape c)) {cs ds s t : List Char}
    (h : '"' :: cs.flatMap escape ++ '"' :: s = '"' :: ds.flatMap escape ++ '"' :: t) :
    cs = ds ∧ s = t := by
  let w : Script Char Char Char := ⟨escape, id, fun _ => True, fun _ => True⟩
  have hends (s : List Char) : w.Ends [] ('"' :: s) :=
    ⟨trivial, fun d u _ => (hescape d).ne_quote s u⟩
  have hlegible (c : Char) : w.Legible c :=
    fun d s t _ _ _ h => hsound.read (hescape c) (hescape d) h
  have hread := Script.join_legible (w := w) (fun _ _ _ => trivial)
    (fun c _ => ⟨trivial, hlegible c⟩) (fun _ _ => trivial) (hends s) (hends t)
    (List.cons.inj h).2
  simpa [w] using hread

end Escapes
end Multipath
