import Mathlib.Data.List.Forall2
import Mathlib.Data.List.Induction

/-!
Passes over a list that stop at the first bad item. Whether an item is bad may depend on
the items before it. A pass whose steps refuse exactly the bad items reports the first of
them, and keeps along the way what its steps keep.
-/

namespace NandComputer

variable {α β σ ε : Type}

/-- The errors are the ones that are described, and a value has the property. -/
structure Reports (result : Except ε σ) (Bad : ε → Prop) (P : σ → Prop) : Prop where
  error_iff : ∀ error, result = .error error ↔ Bad error
  of_ok : ∀ s, result = .ok s → P s

/-- What is done with the result of a pass does not change what it reports. -/
theorem Reports.map {τ : Type} {result : Except ε σ} {Bad : ε → Prop} {P : σ → Prop}
    {Q : τ → Prop} (h : Reports result Bad P) {f : σ → τ} (hf : ∀ s, P s → Q (f s)) :
    Reports (f <$> result) Bad Q := by
  constructor
  · intro error
    rw [← h.error_iff error]
    cases result <;> simp
  · intro last hlast
    cases hresult : result with
    | error error =>
      rw [hresult] at hlast
      cases hlast
    | ok s =>
      rw [hresult] at hlast
      cases hlast
      exact hf s (h.of_ok s hresult)

/-- No item is bad behind the ones before it. -/
def Clean (Bad : List β → β → ε → Prop) (items : List β) : Prop :=
  ∀ part b rest error, items = part ++ b :: rest → ¬ Bad part b error

/-- The error of the first item that is bad. -/
def FirstBad (Bad : List β → β → ε → Prop) (items : List β) (error : ε) : Prop :=
  ∃ part b rest, items = part ++ b :: rest ∧ Bad part b error ∧ Clean Bad part

variable {Bad : List β → β → ε → Prop}

theorem clean_nil : Clean Bad [] := by
  intro part b rest error hsplit
  simp at hsplit

/-- Items are clean if the first ones are and the last one is not bad behind them. -/
theorem Clean.concat {part : List β} {b : β} (h : Clean Bad part)
    (hb : ∀ error, ¬ Bad part b error) : Clean Bad (part ++ [b]) := by
  intro front c rest error hsplit
  rcases List.eq_nil_or_concat rest with rfl | ⟨middle, last, rfl⟩
  · obtain ⟨rfl, rfl⟩ := List.append_inj' hsplit rfl |>.imp_right List.singleton_inj.mp
    exact hb error
  · have hpart : part = front ++ c :: middle := by
      have hsame : part ++ [b] = (front ++ c :: middle) ++ [last] := by simpa using hsplit
      exact (List.append_inj' hsame rfl).1
    exact h front c middle error hpart

/-- Of two items of a list, one stands before the other unless they are the same. -/
theorem eq_or_before_of_splits {part rest front behind : List β} {b c : β}
    (h : part ++ b :: rest = front ++ c :: behind) :
    (part = front ∧ b = c) ∨ (∃ middle, front = part ++ b :: middle) ∨
      ∃ middle, part = front ++ c :: middle := by
  rcases List.append_eq_append_iff.mp h with ⟨middle, rfl, hrest⟩ | ⟨middle, rfl, hrest⟩
  · cases middle with
    | nil => exact .inl ⟨by simp, (List.cons.inj hrest).1⟩
    | cons d middle =>
      cases hrest
      exact .inr (.inl ⟨middle, rfl⟩)
  · cases middle with
    | nil => exact .inl ⟨by simp, (List.cons.inj hrest).1.symm⟩
    | cons d middle =>
      cases hrest
      exact .inr (.inr ⟨middle, rfl⟩)

/-- Behind clean items, a bad one is the first, so its error is the reported one. -/
theorem FirstBad.bad_of_clean {part rest : List β} {b : β} {error other : ε}
    (h : FirstBad Bad (part ++ b :: rest) error) (hpart : Clean Bad part)
    (hbad : Bad part b other) : Bad part b error := by
  obtain ⟨front, c, behind, hsplit, hfirst, hfront⟩ := h
  rcases eq_or_before_of_splits hsplit with ⟨rfl, rfl⟩ | ⟨middle, hlong⟩ | ⟨middle, hlong⟩
  · exact hfirst
  · exact absurd hbad (hfront part b middle other hlong)
  · exact absurd hfirst (hpart front c middle error hlong)

theorem FirstBad.not_clean {items : List β} {error : ε} (h : FirstBad Bad items error) :
    ¬ Clean Bad items := by
  obtain ⟨part, b, rest, hsplit, hbad, -⟩ := h
  exact fun hclean => hclean part b rest error hsplit hbad

/-- A pass over items: if every step refuses exactly the bad ones and keeps an invariant of
the items so far, the pass stops at the first bad item. The items that a step sees may stand
for others, such as statements for texts. -/
theorem reports_foldlM {f : σ → α → Except ε σ} (Stands : α → β → Prop)
    (Inv : List β → σ → Prop) {whole : List β}
    (hstep : ∀ part b rest, whole = part ++ b :: rest → ∀ s a, Inv part s → Stands a b →
      Reports (f s a) (Bad part b) (Inv (part ++ [b])))
    {items : List α} {part rest : List β} (hrest : List.Forall₂ Stands items rest)
    (hwhole : whole = part ++ rest) (hclean : Clean Bad part) {s : σ} (hs : Inv part s) :
    Reports (items.foldlM f s) (FirstBad Bad whole) fun last =>
      Inv whole last ∧ Clean Bad whole := by
  induction hrest generalizing part s with
  | nil =>
    rw [List.append_nil] at hwhole
    subst hwhole
    constructor
    · refine fun error => iff_of_false (by simp [pure, Except.pure]) ?_
      rintro ⟨front, b, rest, hsplit, hbad, -⟩
      exact hclean front b rest error hsplit hbad
    · rintro _ ⟨⟩
      exact ⟨hs, hclean⟩
  | @cons a b items rest hstands _ ih =>
    -- a good item moves to the clean part, a bad one is the first there is
    have hnext := hstep part b rest hwhole s a hs hstands
    rw [List.foldlM_cons]
    cases hresult : f s a with
    | ok next =>
      have hgood : ∀ error, ¬ Bad part b error := fun error hbad => by
        rw [(hnext.error_iff error).mpr hbad] at hresult
        cases hresult
      exact ih (by simp [hwhole]) (hclean.concat hgood) (hnext.of_ok next hresult)
    | error error =>
      have hbad := (hnext.error_iff error).mp hresult
      constructor
      · intro other
        constructor
        · rintro ⟨⟩
          exact ⟨part, b, rest, hwhole, hbad, hclean⟩
        · intro hfirst
          rw [hwhole] at hfirst
          have hother := (hnext.error_iff other).mpr (hfirst.bad_of_clean hclean hbad)
          rw [hresult] at hother
          cases hother
          rfl
      · rintro _ ⟨⟩

/-- Reading items one by one stops at the first that cannot be read, and otherwise has read
all of them. -/
theorem reports_mapM {f : β → Except ε α} (Stands : α → β → Prop)
    (hstep : ∀ part b, Reports (f b) (Bad part b) fun a => Stands a b) (items : List β) :
    Reports (items.mapM f) (FirstBad Bad items) fun results =>
      List.Forall₂ Stands results items ∧ Clean Bad items := by
  have hfold : Reports (items.foldlM (fun results b => (· :: results) <$> f b) [])
      (FirstBad Bad items) fun results =>
        List.Forall₂ Stands results.reverse items ∧ Clean Bad items := by
    refine reports_foldlM Eq (fun part (results : List α) =>
      List.Forall₂ Stands results.reverse part)
      ?_ (List.forall₂_same.mpr fun b _ => rfl) (List.nil_append items).symm clean_nil .nil
    rintro part _ rest - results b hresults rfl
    refine (hstep part b).map fun a ha => ?_
    rw [List.reverse_cons]
    exact List.rel_append hresults (.cons ha .nil)
  rw [List.mapM_eq_reverse_foldlM_cons]
  exact hfold.map fun results h => h

end NandComputer
