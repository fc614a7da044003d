import Abacus.Proofs.Lines

/-! # A run on standard input

`Reads` says what can be read of an input: the texts of its lines up to the first line that is no text.
Every input can be read in exactly one way (`exists_reads`, `Reads.unique`).

`ofCommand_input`: a run on standard input writes what the runs on each of these texts alone write, one
after the other, the blank ones left out. -/

namespace Abacus

/-! ### What can be read -/

/-- No line is left, or the first that is left is the UTF-8 form of no text. -/
def Stuck (lines : List (List UInt8)) : Prop := ∀ line ∈ lines.head?, ∀ t : Text, line ≠ t.encode

/-- The lines of an input are the UTF-8 forms of texts, up to one that is the form of no text; this
line and those behind it are unread. -/
structure Reads (input : List UInt8) (texts : List Text) (unread : List (List UInt8)) : Prop where
  lines : Lines input (texts.map Text.encode ++ unread)
  stuck : Stuck unread

theorem exists_stuck (lines : List (List UInt8)) : ∃ (texts : List Text) (unread : List (List UInt8)),
    lines = texts.map Text.encode ++ unread ∧ Stuck unread := by
  induction lines with
  | nil => exact ⟨[], [], rfl, by simp [Stuck]⟩
  | cons line lines ih =>
    by_cases hline : ∃ t : Text, line = t.encode
    · obtain ⟨t, rfl⟩ := hline
      obtain ⟨texts, unread, rfl, hstuck⟩ := ih
      exact ⟨t :: texts, unread, rfl, hstuck⟩
    · refine ⟨[], line :: lines, rfl, ?_⟩
      simpa [Stuck] using hline

theorem exists_reads (input : List UInt8) : ∃ texts unread, Reads input texts unread := by
  obtain ⟨texts, unread, hlines, hstuck⟩ := exists_stuck (inputLines input)
  exact ⟨texts, unread, hlines ▸ lines_inputLines input, hstuck⟩

theorem Stuck.unique {unread unread' : List (List UInt8)} (hstuck : Stuck unread)
    (hstuck' : Stuck unread') : ∀ {texts texts' : List Text},
    texts.map Text.encode ++ unread = texts'.map Text.encode ++ unread' →
      texts = texts' ∧ unread = unread'
  | [], [], h => ⟨rfl, h⟩
  | [], t :: _, h => by
    have hunread : unread = t.encode :: _ := h
    exact absurd rfl (hstuck t.encode (by simp [hunread]) t)
  | t :: _, [], h => by
    have hunread : t.encode :: _ = unread' := h
    exact absurd rfl (hstuck' t.encode (by simp [← hunread]) t)
  | t :: texts, t' :: texts', h => by
    obtain ⟨ht, hmore⟩ := List.cons.inj h
    obtain ⟨rfl, hunread⟩ := hstuck.unique hstuck' hmore
    rw [Text.encode_injective ht]
    exact ⟨rfl, hunread⟩

theorem Reads.unique {input : List UInt8} {texts texts' : List Text}
    {unread unread' : List (List UInt8)} (h : Reads input texts unread)
    (h' : Reads input texts' unread') : texts = texts' ∧ unread = unread' := by
  have hlines := h.lines.inputLines_eq
  rw [h'.lines.inputLines_eq] at hlines
  exact h.stuck.unique h'.stuck hlines.symm

/-! ### What a run writes -/

namespace Outcome
variable {S : Separators}

theorem exitCode_eq_zero_iff {o : Outcome} : o.exitCode = 0 ↔ o.success = true := by
  rw [exitCode]
  cases o.success <;> decide

theorem stdout_ofExpressions (S : Separators) (sources : List Text) :
    (ofExpressions S sources).stdout = (sources.map (ofExpression S)).flatMap stdout := by
  induction sources with
  | nil => rfl
  | cons source sources ih => simp [ofExpressions_cons, ih]

theorem stderr_ofExpressions (S : Separators) (sources : List Text) :
    (ofExpressions S sources).stderr = (sources.map (ofExpression S)).flatMap stderr := by
  induction sources with
  | nil => rfl
  | cons source sources ih => simp [ofExpressions_cons, ih]

theorem success_ofExpressions_iff (S : Separators) (sources : List Text) :
    (ofExpressions S sources).success = true ↔
      ∀ o ∈ sources.map (ofExpression S), o.success = true := by
  induction sources with
  | nil => simp [ofExpressions]
  | cons source sources ih => simp [ofExpressions_cons, ih]

/-- The lines that are texts come to what their texts come to as expressions, without the blank ones. -/
theorem ofLines_map_encode_append (S : Separators) (texts : List Text) (unread : List (List UInt8)) :
    ofLines S (texts.map Text.encode ++ unread)
      = ofExpressions S (texts.filter fun t => !t.all Text.isBlank) ++ ofLines S unread := by
  induction texts with
  | nil => exact (Outcome.empty_append _).symm
  | cons t texts ih =>
    rw [List.map_cons, List.cons_append, ofLines, decode?_encode]
    dsimp only
    by_cases hblank : t.all Text.isBlank = true
    · rw [if_pos hblank, ih, List.filter_cons_of_neg (by simp [hblank])]
    · rw [if_neg hblank, ih, List.filter_cons_of_pos (by simp [hblank]), ofExpressions_cons,
        Outcome.append_assoc]

theorem ofLines_of_stuck {unread : List (List UInt8)} (h : Stuck unread) :
    ofLines S unread = if unread = [] then {} else unreadable := by
  cases unread with
  | nil => rfl
  | cons line lines =>
    have hline : decode? line = none := by
      rw [Option.eq_none_iff_forall_ne_some]
      intro t ht
      exact h line rfl t (decode?_eq_some_iff.1 ht)
    rw [ofLines, hline, if_neg (List.cons_ne_nil _ _)]

theorem ofInput_of_reads {input : List UInt8} {texts : List Text} {unread : List (List UInt8)}
    (h : Reads input texts unread) :
    ofInput S input = ofExpressions S (texts.filter fun t => !t.all Text.isBlank)
      ++ if unread = [] then {} else unreadable := by
  rw [ofInput_eq_ofLines, h.lines.inputLines_eq, ofLines_map_encode_append, ofLines_of_stuck h.stuck]

theorem ofCommand_singleton (env : Environment) (source : Text) (input : List UInt8) :
    ofCommand env [source] input = ofExpression env.separators source :=
  Outcome.append_empty _

end Outcome

/-- A run on standard input comes to the runs on its lines: each text that is not blank, up to the first
line that is no text, is evaluated as if it were the only argument. A line that is no text is reported
after all that was written till then. -/
theorem ofCommand_input (env : Environment) (input ignored : List UInt8) :
    ∃ texts unread, Reads input texts unread ∧
      (∀ texts' unread', Reads input texts' unread' → texts' = texts ∧ unread' = unread) ∧
      let whole := Outcome.ofCommand env [] input
      let apart := (texts.filter fun t => !t.all Text.isBlank).map fun t =>
        Outcome.ofCommand env [t] ignored
      whole.stdout = apart.flatMap Outcome.stdout ∧
      whole.stderr = apart.flatMap Outcome.stderr
        ++ (if unread = [] then [] else "decalc: stream did not contain valid UTF-8\n".toList) ∧
      (whole.exitCode = 0 ↔ (∀ o ∈ apart, o.exitCode = 0) ∧ unread = []) := by
  obtain ⟨texts, unread, h⟩ := exists_reads input
  refine ⟨texts, unread, h, fun texts' unread' h' => h'.unique h, ?_⟩
  have hwhole : Outcome.ofCommand env [] input = Outcome.ofInput env.separators input := rfl
  rw [Outcome.ofInput_of_reads h] at hwhole
  simp only [hwhole, Outcome.ofCommand_singleton, Outcome.exitCode_eq_zero_iff]
  rw [← Outcome.stdout_ofExpressions, ← Outcome.stderr_ofExpressions,
    ← Outcome.success_ofExpressions_iff]
  by_cases hread : unread = []
  · simp [hread]
  · simp [hread, Outcome.unreadable]

end Abacus
