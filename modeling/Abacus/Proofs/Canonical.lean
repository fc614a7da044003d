import Abacus.Proofs.Numeral

/-! # Canonical texts

`IsCanonical` says which texts need no rewriting: separators alone, a group alone, and two groups with a
point between them. In `0.5` the zero need not be a group: a locale may make a separator of it.

`canonical` writes such texts only (`isCanonical_canonical`) and changes no other (`canonical_eq_self_iff`),
so that to rewrite a run twice is to rewrite it once (`canonical_canonical`). -/

namespace Abacus.Numeral
variable {S : Separators} {run w whole fraction t : Text}

/-- The texts that are left as they are. -/
inductive IsCanonical (S : Separators) : Text → Prop where
  | separators {t : Text} (ht : ∀ c ∈ t, S.contains c = true) : IsCanonical S t
  | group {w : Text} (hne : w ≠ []) (hw : ∀ c ∈ w, S.contains c = false) : IsCanonical S w
  | leading {w : Text} (hne : w ≠ []) (hw : ∀ c ∈ w, S.contains c = false) :
      IsCanonical S ('0' :: '.' :: w)
  | point {whole fraction : Text} (hne : whole ≠ []) (hwhole : ∀ c ∈ whole, S.contains c = false)
      (hne' : fraction ≠ []) (hfraction : ∀ c ∈ fraction, S.contains c = false) :
      IsCanonical S (whole ++ '.' :: fraction)

/-! ### Canonical texts are left as they are -/

theorem canonical_of_groups_eq_nil (h : groups S run = []) : canonical S run = run := by
  rw [canonical, h]

theorem canonical_of_groups_eq_singleton (h : groups S run = [w]) :
    canonical S run = if startsWithSeparator S run then '0' :: '.' :: w else w := by
  rw [canonical, h]

theorem canonical_group (hne : w ≠ []) (hw : ∀ c ∈ w, S.contains c = false) : canonical S w = w := by
  rw [canonical_of_groups_eq_singleton (groups_of_digits hne hw), startsWithSeparator_eq_false hw]
  rfl

theorem canonical_point (hne : whole ≠ []) (hwhole : ∀ c ∈ whole, S.contains c = false)
    (hne' : fraction ≠ []) (hfraction : ∀ c ∈ fraction, S.contains c = false) :
    canonical S (whole ++ '.' :: fraction) = whole ++ '.' :: fraction := by
  have hgroups : groups S (whole ++ '.' :: fraction) = [whole, fraction] := by
    rw [groups_append_separator Separators.contains_point, groups_of_digits hne hwhole,
      groups_of_digits hne' hfraction]
    rfl
  rw [canonical, hgroups]
  simp

theorem canonical_leading (hne : w ≠ []) (hw : ∀ c ∈ w, S.contains c = false) :
    canonical S ('0' :: '.' :: w) = '0' :: '.' :: w := by
  cases h : S.contains '0' with
  | false => exact canonical_point (List.cons_ne_nil '0' []) (by simpa using h) hne hw
  | true =>
    -- the zero is a separator itself, and puts back what was put before the group
    have hgroups : groups S ('0' :: '.' :: w) = [w] := by
      rw [groups_cons_separator h, groups_cons_separator Separators.contains_point,
        groups_of_digits hne hw]
    have hstarts : startsWithSeparator S ('0' :: '.' :: w) = true := h
    rw [canonical_of_groups_eq_singleton hgroups, hstarts]
    rfl

theorem IsCanonical.canonical_eq (h : IsCanonical S t) : canonical S t = t := by
  cases h with
  | separators ht => exact canonical_of_groups_eq_nil (groups_of_separators ht)
  | group hne hw => exact canonical_group hne hw
  | leading hne hw => exact canonical_leading hne hw
  | point hne hwhole hne' hfraction => exact canonical_point hne hwhole hne' hfraction

/-! ### Only canonical texts are written -/

theorem isCanonical_canonical (S : Separators) (run : Text) : IsCanonical S (canonical S run) := by
  by_cases hne : groups S run = []
  · rw [canonical_of_groups_eq_nil hne]
    exact .separators (groups_eq_nil_iff.1 hne)
  · obtain ⟨⟨whole, fraction⟩, hparts⟩ :
        ∃ p, parts (startsWithSeparator S run) (groups S run) = p := ⟨_, rfl⟩
    have hclear : ∀ c ∈ whole ++ fraction, S.contains c = false := fun c hc =>
      (mem_of_parts_eq hparts c hc).2
    obtain ⟨hwhole, hfraction⟩ := List.forall_mem_append.1 hclear
    rcases canonical_cases hne hparts with ⟨hw, -, h⟩ | ⟨-, hf, h⟩ | ⟨hw, hf, h⟩ <;> rw [h]
    · exact .group hw hwhole
    · exact .leading hf hfraction
    · exact .point hw hwhole hf hfraction

theorem canonical_eq_self_iff : canonical S t = t ↔ IsCanonical S t := by
  refine ⟨fun h => ?_, IsCanonical.canonical_eq⟩
  rw [← h]
  exact isCanonical_canonical S t

/-- A run that has been rewritten is not rewritten again, whatever it holds and whatever a locale takes
for a separator. -/
theorem canonical_canonical (S : Separators) (run : Text) :
    canonical S (canonical S run) = canonical S run :=
  canonical_eq_self_iff.2 (isCanonical_canonical S run)

/-- Where zero is a separator, the literal of a fraction begins with a separator as the run does. -/
example : canonical ⟨some '0', none⟩ ['0', '7'] = ['0', '.', '7'] ∧
    canonical ⟨some '0', none⟩ ['0', '.', '7'] = ['0', '.', '7'] := by decide

end Abacus.Numeral
