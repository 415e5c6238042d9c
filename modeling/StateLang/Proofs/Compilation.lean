import StateLang.Compilation
import StateLang.Proofs.Document.Text
import StateLang.Proofs.Fault

/-!
# Compiling as a whole

Once a source is read, nothing after it can fail: every use is located, so both
documents are written. A compilation therefore fails only in reading, with a
fault that has a place in the source.
-/

namespace StateLang

/-- The documents of a program whose uses are all located. -/
def Program.written (p : Program) (naming : Naming) : Documents :=
  ⟨p.resolve.header naming, p.resolve.implementationText naming⟩

theorem Program.resolve_documents (p : Program) (naming : Naming) :
    p.resolve.documents naming = .ok (p.written naming) :=
  Resolved.documents_eq p.resolve_located naming

theorem Resolved.ofSource_eq (source : String) :
    Resolved.ofSource source = (Program.parse source).map Program.resolve := by
  rw [Resolved.ofSource]
  cases Program.parse source <;> rfl

namespace Compiled

theorem ofSource_of_parse {source : String} {p : Program} (h : Program.parse source = .ok p)
    (naming : Naming) :
    Compiled.ofSource source naming = .ok ⟨p.resolve, p.written naming⟩ := by
  rw [Compiled.ofSource, Resolved.ofSource_eq, h]
  change (p.resolve.documents naming >>= fun documents => pure (Compiled.mk p.resolve documents)) = _
  rw [p.resolve_documents]
  rfl

theorem ofSource_of_fault {source : String} {fault : Fault}
    (h : Program.parse source = .error fault) (naming : Naming) :
    Compiled.ofSource source naming = .error fault := by
  rw [Compiled.ofSource, Resolved.ofSource_eq, h]
  rfl

/-- What was compiled was read. -/
theorem exists_parse {source : String} {naming : Naming} {c : Compiled}
    (h : Compiled.ofSource source naming = .ok c) :
    ∃ p, Program.parse source = .ok p ∧ c = ⟨p.resolve, p.written naming⟩ := by
  cases hparse : Program.parse source with
  | error fault =>
      rw [ofSource_of_fault hparse] at h
      cases h
  | ok p =>
      rw [ofSource_of_parse hparse] at h
      cases h
      exact ⟨p, rfl, rfl⟩

theorem exists_fault {source : String} {naming : Naming} {fault : Fault}
    (h : Compiled.ofSource source naming = .error fault) : Program.parse source = .error fault := by
  cases hparse : Program.parse source with
  | error other =>
      rw [ofSource_of_fault hparse] at h
      cases h
      rfl
  | ok p =>
      rw [ofSource_of_parse hparse] at h
      cases h

end Compiled

theorem Parser.IsRule.not_internal {α : Type} {rule : ParseM α} (h : IsRule rule) {p q : Parser}
    {detail : String} : rule p ≠ .error (.internal detail) q := by
  intro hfails
  have hpos := (h.failsInPlace p _ q hfails).pos?_eq
  cases hpos

theorem Parser.IsRule.read_not_internal {α : Type} {rule : ParseM α} (h : IsRule rule)
    {tokens : List Token} {detail : String} : read rule tokens ≠ .error (.internal detail) := by
  intro hread
  unfold read at hread
  split at hread
  · cases hread
  · next hfails =>
      cases hread
      exact h.not_internal hfails

/-- Compiling succeeds exactly where reading does and fails with the same fault, which is never an
internal one; and no rule of the parser has an internal fault, wherever it starts. -/
theorem internal_fault_unreachable :
    (∀ source naming,
      ((∃ c, Compiled.ofSource source naming = .ok c) ↔ ∃ p, Program.parse source = .ok p) ∧
      (∀ fault, Compiled.ofSource source naming = .error fault ↔
        Program.parse source = .error fault) ∧
      ∀ detail, Compiled.ofSource source naming ≠ .error (.internal detail)) ∧
    ∀ {α : Type} {rule : ParseM α}, Parser.IsRule rule → ∀ p q detail,
      rule p ≠ .error (.internal detail) q := by
  refine ⟨fun source naming => ⟨⟨?_, ?_⟩, fun fault => ⟨?_, ?_⟩, fun detail => ?_⟩, ?_⟩
  · rintro ⟨c, hc⟩
    obtain ⟨p, hp, -⟩ := Compiled.exists_parse hc
    exact ⟨p, hp⟩
  · rintro ⟨p, hp⟩
    exact ⟨_, Compiled.ofSource_of_parse hp naming⟩
  · exact Compiled.exists_fault
  · exact fun hfault => Compiled.ofSource_of_fault hfault naming
  · intro hinternal
    exact Parser.IsRule.program.read_not_internal (Compiled.exists_fault hinternal)
  · intro α rule hrule p q detail
    exact hrule.not_internal

/-- A list with its end in the middle: the rule for expressions stops there. -/
theorem internal_fault_unreachable_midway :
    let number : Token := ⟨.literal .int, "1", 0, .start⟩
    let p := Parser.ofTokens [number, Token.endAt 1 .start, number]
    (∀ q detail, Parser.expr 60 p ≠ .error (.internal detail) q) ∧
      ∃ c, Compiled.ofSource "name: M; platform: P;" ⟨"M.h", "R.h"⟩ = .ok c := by
  intro number p
  have hparse : Program.parse "name: M; platform: P;" = .ok ⟨.ofName "M", .ofName "P", [], []⟩ :=
    Parser.ok_of_toOption (by decide +kernel)
  have hcompiles := (internal_fault_unreachable.1 "name: M; platform: P;" ⟨"M.h", "R.h"⟩).1
  exact ⟨internal_fault_unreachable.2 (.expr 60) p, hcompiles.mpr ⟨_, hparse⟩⟩

end StateLang
