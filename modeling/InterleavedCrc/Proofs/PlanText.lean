import InterleavedCrc.Proofs.AnyPlan
import InterleavedCrc.Proofs.Constructors

/-!
# Texts of plans

A plan is written as the words and lanes of its levels, in decimal, with an `x` inside a level
and a slash between levels.  Neither can be part of a number, so that the text is read back
(`Plan.readShapes?_text`).  The sizes and tables of a level follow from its words and lanes,
and therefore the text tells one plan from all others.
-/

namespace InterleavedCrc

def Shape.numbers (shape : Shape) : ℕ × ℕ := (shape.words.toNat, shape.lanes.toNat)

theorem Shape.numbers_injective : Function.Injective numbers := by
  rintro ⟨words, lanes⟩ ⟨words', lanes'⟩ h
  obtain ⟨hwords, hlanes⟩ := Prod.mk.inj h
  exact congrArg₂ Shape.mk (UInt64.toNat_inj.1 hwords) (UInt64.toNat_inj.1 hlanes)

/-- The parts of a text between separators. -/
def splitText (separator : Char) (text : String) : List String :=
  (text.split separator).toList.map (·.copy)

/-- The words and the lanes that one part tells, in decimal. -/
def readShape? (part : String) : Option (ℕ × ℕ) :=
  match splitText 'x' part with
  | [words, lanes] => do
      let words ← words.toNat?
      let lanes ← lanes.toNat?
      return (words, lanes)
  | _ => none

def readShapes? (text : String) : Option (List (ℕ × ℕ)) := (splitText '/' text).mapM readShape?

theorem splitText_intercalate {separator : Char} {parts : List String} (hparts : parts ≠ [])
    (h : ∀ part ∈ parts, separator ∉ part.toList) :
    splitText separator ((String.singleton separator).intercalate parts) = parts := by
  rw [splitText, String.toList_split_intercalate h, if_neg hparts]

theorem splitText_of_not_mem {separator : Char} {text : String} (h : separator ∉ text.toList) :
    splitText separator text = [text] := by
  have hsingle := splitText_intercalate (List.cons_ne_nil text []) (List.forall_mem_singleton.2 h)
  rwa [String.intercalate_singleton] at hsingle

theorem not_mem_toDigits {char : Char} (h : char.isDigit = false) (n : ℕ) :
    char ∉ Nat.toDigits 10 n := by
  intro hmem
  have hdigit := Nat.isDigit_of_mem_toDigits (by decide) (by decide) hmem
  simp [h] at hdigit

namespace Level

theorem text_eq_intercalate (level : Level) :
    level.text = (String.singleton 'x').intercalate
      [toString level.shape.words.toNat, toString level.shape.lanes.toNat] := by
  rw [String.intercalate_cons_cons, String.intercalate_singleton]
  rfl

theorem readShape?_text (level : Level) :
    readShape? level.text = some level.shape.numbers := by
  have hparts : splitText 'x' level.text
      = [toString level.shape.words.toNat, toString level.shape.lanes.toNat] := by
    rw [text_eq_intercalate]
    refine splitText_intercalate (List.cons_ne_nil _ _) ?_
    simp [not_mem_toDigits]
  rw [readShape?, hparts]
  simp [Shape.numbers]

theorem mapM_readShape?_text (levels : List Level) :
    (levels.map text).mapM readShape? = some (levels.map fun level ↦ level.shape.numbers) := by
  induction levels with
  | nil => rfl
  | cons level levels ih =>
      rw [List.map_cons, List.mapM_cons, readShape?_text, ih]
      rfl

theorem slash_not_mem_text (level : Level) : '/' ∉ level.text.toList := by
  simp [text, not_mem_toDigits]

end Level

namespace Plan

theorem readShapes?_text {plan : Plan} (hplan : plan.isSequential = false) :
    readShapes? plan.text = some (plan.shapes.map Shape.numbers) := by
  have hlevels : plan.levels.map Level.text ≠ [] := by simpa [isSequential] using hplan
  have hparts : splitText '/' plan.text = plan.levels.map Level.text := by
    rw [text, hplan]
    exact splitText_intercalate hlevels (by simp [Level.slash_not_mem_text])
  rw [readShapes?, hparts, Level.mapM_readShape?_text, shapes, List.map_map]
  rfl

theorem readShapes?_sequential : readShapes? "sequential" = none := by
  have hlevels : splitText '/' "sequential" = ["sequential"] := splitText_of_not_mem (by decide)
  have hparts : splitText 'x' "sequential" = ["sequential"] := splitText_of_not_mem (by decide)
  rw [readShapes?, hlevels, List.mapM_cons, readShape?, hparts]
  rfl

theorem text_ne_sequential {plan : Plan} (hplan : plan.isSequential = false) :
    plan.text ≠ "sequential" := by
  intro htext
  have hread := readShapes?_text hplan
  rw [htext, readShapes?_sequential] at hread
  cases hread

/-- Reads the plan without levels too. -/
def readPlan? (text : String) : Option (List (ℕ × ℕ)) :=
  if text = "sequential" then some [] else readShapes? text

theorem readPlan?_text (plan : Plan) :
    readPlan? plan.text = some (plan.shapes.map Shape.numbers) := by
  cases hplan : plan.isSequential with
  | true =>
      obtain rfl := (isSequential_iff plan).1 hplan
      rfl
  | false => rw [readPlan?, if_neg (text_ne_sequential hplan), readShapes?_text hplan]

theorem shapes_eq_of_text_eq {p q : Plan} (h : p.text = q.text) : p.shapes = q.shapes := by
  have hread := congrArg readPlan? h
  rw [readPlan?_text, readPlan?_text, Option.some_inj] at hread
  exact List.map_injective_iff.2 Shape.numbers_injective hread

/-- All else that a level holds is computed from its shape. -/
theorem Obtainable.eq_of_shapes_eq {p q : Plan} (hp : p.Obtainable) (hq : q.Obtainable)
    (h : p.shapes = q.shapes) : p = q := by
  obtain ⟨shapes, -, rfl⟩ := hp.exists_chain
  obtain ⟨shapes', -, rfl⟩ := hq.exists_chain
  rw [shapes_mk_map_ofShape, shapes_mk_map_ofShape] at h
  rw [h]

/-- Two plans are equal in all that they hold exactly if they are written alike.  What is
written of a plan with levels is read back, and is not what is written of the plan without. -/
theorem text_identifies_plan :
    (∀ p q : Plan, p.Obtainable → q.Obtainable →
      [(p == q) = true, p.text = q.text, p.shapes = q.shapes].TFAE) ∧
    ∀ p : Plan, p.isSequential = false →
      readShapes? p.text = some (p.shapes.map Shape.numbers) ∧ p.text ≠ "sequential" := by
  constructor
  · intro p q hp hq
    tfae_have 1 → 2 := fun h ↦ congrArg text (eq_of_beq h)
    tfae_have 2 → 3 := shapes_eq_of_text_eq
    tfae_have 3 → 1 := fun h ↦ beq_iff_eq.2 (hp.eq_of_shapes_eq hq h)
    tfae_finish
  · intro p hplan
    exact ⟨readShapes?_text hplan, text_ne_sequential hplan⟩

theorem text_of_nestedPlan :
    nestedPlan.Obtainable ∧ standard.Obtainable ∧ nestedPlan.isSequential = false ∧
      (nestedPlan == standard) = false ∧ nestedPlan.text ≠ standard.text ∧
      readShapes? "2x1/1x2" = some [(2, 1), (1, 2)] := by
  obtain ⟨hidentifies, hreads⟩ := text_identifies_plan
  have hequivalent := hidentifies nestedPlan standard obtainable_nestedPlan obtainable_standard
  have hshapes : nestedPlan.shapes ≠ standard.shapes := by decide
  have hequal : ¬ (nestedPlan == standard) = true := mt (hequivalent.out 0 2).1 hshapes
  have htext : nestedPlan.text = "2x1/1x2" := by decide
  have hread := (hreads nestedPlan rfl).1
  rw [htext] at hread
  exact ⟨obtainable_nestedPlan, obtainable_standard, rfl, Bool.eq_false_iff.2 hequal,
    mt (hequivalent.out 1 2).1 hshapes, hread⟩

end Plan

end InterleavedCrc
