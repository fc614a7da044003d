import Abacus.Proofs.Locale
import Mathlib

/-! # What a locale name means

A name counts by its language and its territory, in any mixture of cases; only the two names of the locale
without a language have to be written as they are. `Means` says what a language and a territory mean by
the table.

`ofName?_means`: a name means what its language and territory mean, so names that agree in these mean the
same, whatever else there is to them. -/

namespace Abacus

namespace Text

/-- The same text, in another mixture of cases. -/
def SameFolded (t u : Text) : Prop := t.map Char.toLower = u.map Char.toLower

theorem SameFolded.map_toUpper {t u : Text} (h : SameFolded t u) :
    t.map Char.toUpper = u.map Char.toUpper := by
  have hupper : Char.toUpper ∘ Char.toLower = Char.toUpper := funext Char.toUpper_toLower_eq_toUpper
  have hmap := congrArg (List.map Char.toUpper) h
  rwa [List.map_map, List.map_map, hupper] at hmap

end Text

namespace Conventions

/-- A base name that is one of the two names of the locale without a language. -/
def IsNeutral (base : Text) : Prop := base = "C".toList ∨ base = "POSIX".toList

/-- The same language, and the same territory or none, up to case. -/
def SameSubtags (tags tags' : List Text) : Prop :=
  Option.Rel Text.SameFolded tags[0]? tags'[0]? ∧ Option.Rel Text.SameFolded tags[1]? tags'[1]?

def regionKey (language territory : Text) : Text := language ++ '_' :: territory

/-- What a language and a territory mean, if there is one, both in the case of the table: the entry for
the two, without such an entry that for the language, and without that nothing. -/
inductive Means (language : Text) (territory? : Option Text) : Option Conventions → Prop where
  | region {territory : Text} {c : Conventions} : territory ∈ territory? →
      (regionKey language territory, c) ∈ table → Means language territory? (some c)
  | language {c : Conventions} :
      (∀ territory ∈ territory?, ∀ d, (regionKey language territory, d) ∉ table) →
      (language, c) ∈ table → Means language territory? (some c)
  | unknown : (∀ territory ∈ territory?, ∀ d, (regionKey language territory, d) ∉ table) →
      (∀ d, (language, d) ∉ table) → Means language territory? none

/-! ### The table -/

theorem entry?_eq_some_iff {key : Text} {c : Conventions} :
    entry? key = some c ↔ (key, c) ∈ table := by
  have hall : table.all (fun entry => entry? entry.1 == some entry.2) = true := by
    decide +kernel
  exact ⟨mem_table_of_entry?_eq_some,
    fun h => eq_of_beq (List.all_eq_true.1 hall (key, c) h)⟩

theorem entry?_eq_none_iff {key : Text} : entry? key = none ↔ ∀ c, (key, c) ∉ table := by
  rw [Option.eq_none_iff_forall_ne_some]
  simp only [Ne, entry?_eq_some_iff]

/-- Each key is a language, or a language and a territory, in its own case. -/
theorem ofSubtags?_subtags_of_mem_table : ∀ entry ∈ table, ¬ IsNeutral entry.1 →
    ofSubtags? (subtags entry.1) = some entry.2 := by
  have hall : table.all (fun entry => entry.1 == "C".toList || entry.1 == "POSIX".toList ||
      decide (ofSubtags? (subtags entry.1) = some entry.2)) = true := by
    decide +kernel
  intro entry hentry hneutral
  have hkey := List.all_eq_true.1 hall entry hentry
  simp only [Bool.or_eq_true, beq_iff_eq, decide_eq_true_eq] at hkey
  exact hkey.resolve_left hneutral

/-! ### Names -/

/-- A base name that is a key means the same when it is taken apart. -/
theorem ofName?_eq_ofSubtags? {name : Text} (h : ¬ IsNeutral (baseName name)) :
    ofName? name = ofSubtags? (subtags (baseName name)) := by
  rw [ofName?]
  rcases hentry : entry? (baseName name) with _ | c
  · rfl
  · exact (ofSubtags?_subtags_of_mem_table _ (entry?_eq_some_iff.1 hentry) h).symm

theorem exists_subtags_eq (base : Text) : ∃ language more, subtags base = language :: more :=
  List.exists_cons_of_ne_nil (List.splitOnP_ne_nil _ _)

theorem ofSubtags?_congr : ∀ {tags tags' : List Text}, SameSubtags tags tags' →
    ofSubtags? tags = ofSubtags? tags'
  | [], [], _ => rfl
  | [language], [language'], ⟨.some hlanguage, _⟩ => by
    rw [ofSubtags?, ofSubtags?, hlanguage]
  | language :: territory :: more, language' :: territory' :: more',
      ⟨.some hlanguage, .some hterritory⟩ => by
    rw [ofSubtags?, ofSubtags?, hlanguage, hterritory.map_toUpper]

theorem means_of_not_mem_region {language : Text} {territory? : Option Text}
    (h : ∀ territory ∈ territory?, ∀ c, (regionKey language territory, c) ∉ table) :
    Means language territory? <| entry? language := by
  rcases hlanguage : entry? language with _ | c
  · exact .unknown h (entry?_eq_none_iff.1 hlanguage)
  · exact .language h (entry?_eq_some_iff.1 hlanguage)

theorem means_region_orElse (language territory : Text) :
    Means language (some territory) <| entry? (regionKey language territory) <|> entry? language := by
  rcases hregion : entry? (regionKey language territory) with _ | c
  · exact means_of_not_mem_region (by simpa using entry?_eq_none_iff.1 hregion)
  · exact .region rfl (entry?_eq_some_iff.1 hregion)

theorem means_ofSubtags? (language : Text) (more : List Text) :
    Means (language.map Char.toLower) (more.head?.map (List.map Char.toUpper))
      (ofSubtags? (language :: more)) := by
  cases more with
  | nil => exact means_of_not_mem_region (by simp)
  | cons territory more => exact means_region_orElse _ _

theorem Means.unique {language : Text} {territory? : Option Text} {found found' : Option Conventions}
    (h : Means language territory? found) (h' : Means language territory? found') :
    found = found' := by
  have hentry : ∀ {key c d}, (key, c) ∈ table → (key, d) ∈ table → some c = some d := by
    intro key c d hc hd
    rw [← entry?_eq_some_iff.2 hc, ← entry?_eq_some_iff.2 hd]
  cases h with
  | region ht hc =>
    cases h' with
    | region ht' hd =>
      cases Option.mem_unique ht ht'
      exact hentry hc hd
    | language hno _ => exact absurd hc (hno _ ht _)
    | unknown hno _ => exact absurd hc (hno _ ht _)
  | language hno hc =>
    cases h' with
    | region ht hd => exact absurd hd (hno _ ht _)
    | language _ hd => exact hentry hc hd
    | unknown _ hnone => exact absurd hc (hnone _)
  | unknown hno hnone =>
    cases h' with
    | region ht hd => exact absurd hd (hno _ ht _)
    | language _ hd => exact absurd hd (hnone _)
    | unknown _ _ => rfl

/-- A name means what the first two pieces of its base name mean, the language in small and the territory
in capital letters. So two names mean the same if these pieces are the same up to case. -/
theorem ofName?_means {name : Text} (h : ¬ IsNeutral (baseName name)) :
    (∃ language more, subtags (baseName name) = language :: more ∧
      ∀ found, ofName? name = found ↔
        Means (language.map Char.toLower) (more.head?.map (List.map Char.toUpper)) found) ∧
    ∀ other, ¬ IsNeutral (baseName other) →
      SameSubtags (subtags (baseName name)) (subtags (baseName other)) →
      ofName? name = ofName? other := by
  constructor
  · obtain ⟨language, more, hsubtags⟩ := exists_subtags_eq (baseName name)
    have hmeans := means_ofSubtags? language more
    rw [← hsubtags, ← ofName?_eq_ofSubtags? h] at hmeans
    exact ⟨language, more, hsubtags, fun found => ⟨fun hfound => hfound ▸ hmeans, hmeans.unique⟩⟩
  · intro other hother hsame
    rw [ofName?_eq_ofSubtags? h, ofName?_eq_ofSubtags? hother, ofSubtags?_congr hsame]

namespace SwissGerman

/-- A language, a territory and a variant, with a codeset and a modifier behind them. -/
def spelled : Text := " DE-ch_1996 .UTF-8@euro".toList

def plain : Text := "de_CH".toList

theorem ofName?_spelled :
    subtags (baseName spelled) = ["DE".toList, "ch".toList, "1996".toList] ∧
    ofName? spelled = ofName? plain ∧ ofName? spelled = some pointApostrophe := by
  have hspelled : ¬ IsNeutral (baseName spelled) := by
    unfold IsNeutral
    decide +kernel
  have hplain : ¬ IsNeutral (baseName plain) := by
    unfold IsNeutral
    decide +kernel
  have hsubtags : subtags (baseName spelled) = ["DE".toList, "ch".toList, "1996".toList] := by
    decide +kernel
  have hsame : SameSubtags (subtags (baseName spelled)) (subtags (baseName plain)) := by
    have hsubtags' : subtags (baseName plain) = ["de".toList, "CH".toList] := by decide +kernel
    rw [hsubtags, hsubtags']
    have hlanguage : "DE".toList.map Char.toLower = "de".toList.map Char.toLower := by decide +kernel
    have hterritory : "ch".toList.map Char.toLower = "CH".toList.map Char.toLower := by decide +kernel
    exact ⟨.some hlanguage, .some hterritory⟩
  obtain ⟨⟨language, more, hpieces, hfound⟩, hother⟩ := ofName?_means hspelled
  rw [hsubtags] at hpieces
  cases hpieces
  have hregion : (regionKey ("DE".toList.map Char.toLower) ("ch".toList.map Char.toUpper),
      pointApostrophe) ∈ table := by decide +kernel
  exact ⟨hsubtags, hother plain hplain hsame, (hfound _).2 (.region rfl hregion)⟩

end SwissGerman

end Conventions

end Abacus
