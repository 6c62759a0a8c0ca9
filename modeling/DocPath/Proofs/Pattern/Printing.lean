import DocPath.Pattern.Parser
import Mathlib.Tactic.IntervalCases

/-! # Writing patterns

One text for each chain. Names carry a backslash before each character that would not be read
as itself, verbatim bodies one before each bracket. -/

namespace DocPath

/-! ## Names and verbatim texts -/

/-- Characters that stand for themselves in a name. -/
def isPlain (c : Char) : Bool := !(isBlank c || isReserved c || c == '\\')

theorem isPlain_of_isDigit {c : Char} (h : c.isDigit = true) : isPlain c = true := by
  obtain ⟨hlow, hhigh⟩ : 48 ≤ c.toNat ∧ c.toNat ≤ 57 := Char.isDigit_iff_toNat.mp h
  rw [← Char.ofNat_toNat c]
  interval_cases c.toNat <;> decide

theorem stripBlanks_of_plain {text : String} (h : ∀ c ∈ text.toList, isPlain c = true) :
    stripBlanks text = text := by
  have hblank : ∀ c ∈ text.toList, (!isBlank c) = true := by
    intro c hc
    have hplain := h c hc
    simp only [isPlain, Bool.not_eq_true', Bool.or_eq_false_iff] at hplain
    simp [hplain.1.1]
  rw [stripBlanks, withoutBlanks, List.filter_eq_self.mpr hblank, String.ofList_toList]

def spellChar (c : Char) : List Char := if isPlain c then [c] else ['\\', c]

def spell (name : String) : List Char := name.toList.flatMap spellChar

def escapeBracket (c : Char) : List Char := if c = '[' ∨ c = ']' then ['\\', c] else [c]

/-- The blank at the end keeps a last backslash from the closing brackets. -/
def printVerbatim (body : String) : List Char :=
  '[' :: '[' :: (body.toList.flatMap escapeBracket ++ [' ', ']', ']'])

/-! ## Templates -/

mutual

/-- The blank behind a bracket keeps it from one that follows. -/
def Template.print : Template → List Char
  | .object properties => Mark.braceL.char :: (printProperties properties ++ [Mark.braceR.char])
  | .array elements => Mark.bracketL.char :: ' ' :: (printSlots elements ++ [Mark.bracketR.char])

def printProperties : List Property → List Char
  | [] => []
  | [property] => property.print
  | property :: rest => property.print ++ Mark.comma.char :: printProperties rest

def Property.print : Property → List Char
  | .plain key => spell key
  | .bound key slot => spell key ++ Mark.colon.char :: slot.print

def Slot.print : Slot → List Char
  | .name name => spell name
  | .nested template => template.print

def printSlots : List Slot → List Char
  | [] => []
  | [slot] => slot.print
  | slot :: rest => slot.print ++ Mark.comma.char :: printSlots rest

end

theorem Template.print_object_append (properties : List Property) (rest : List Char) :
    (Template.object properties).print ++ rest =
      Mark.braceL.char :: (printProperties properties ++ Mark.braceR.char :: rest) := by
  simp [Template.print]

theorem Template.print_array_append (elements : List Slot) (rest : List Char) :
    (Template.array elements).print ++ rest =
      Mark.bracketL.char :: ' ' :: (printSlots elements ++ Mark.bracketR.char :: rest) := by
  simp [Template.print]

/-- The expression that the printed template is read as. -/
def Destructor.reprinted (d : Destructor) : Destructor :=
  ⟨d.template, String.ofList (withoutBlanks d.template.print)⟩

/-! ## Chains -/

def printBound : Option Int → List Char
  | none => []
  | some n => spell (toString n)

/-- What stands between a step and the one before. -/
def Step.separator : Step → List Char
  | .name _ true _ => []
  | _ => [Mark.dot.char]

def printIndex (index : String) : List Char :=
  Mark.bracketL.char :: (spell index ++ [Mark.bracketR.char])

def printExpand (expand : Bool) : List Char := if expand then [Mark.tilde.char] else []

mutual

def Step.print : Step → List Char
  | .name text bracketed expand =>
      (if bracketed then printIndex text else spell text) ++ printExpand expand
  | .verbatim body => printVerbatim body
  | .any => [Mark.star.char]
  | .range bounds =>
      Mark.star.char :: Mark.bracketL.char ::
        (printBound bounds.low ++ Mark.colon.char ::
          (printBound bounds.high ++ [Mark.bracketR.char]))
  | .group exclude members =>
      Mark.star.char :: Mark.parenL.char ::
        ((if exclude then [Mark.bang.char] else []) ++
          (printMembers members ++ [Mark.parenR.char]))
  | .destructor d => d.template.print

def printSteps : List Step → List Char
  | [] => []
  | step :: rest => step.print ++ printRest rest

/-- Steps that follow others. -/
def printRest : List Step → List Char
  | [] => []
  | step :: rest => step.separator ++ step.print ++ printRest rest

def printMembers : List (List Step) → List Char
  | [] => []
  | [member] => printSteps member
  | member :: rest => printSteps member ++ Mark.comma.char :: printMembers rest

end

theorem printRest_nameSteps (index : String) (more : List String) (expand : Bool)
    (after : List Step) :
    printRest (Pattern.nameSteps true index more expand ++ after) =
      (index :: more).flatMap printIndex ++ (printExpand expand ++ printRest after) := by
  induction more generalizing index with
  | nil => simp [Pattern.nameSteps, printRest, Step.separator, Step.print]
  | cons next more ih =>
      rw [Pattern.nameSteps, List.cons_append, printRest, ih]
      simp [Step.separator, Step.print, printExpand]

theorem printSteps_nameSteps (text : String) (more : List String) (expand : Bool)
    (after : List Step) :
    printSteps (Pattern.nameSteps false text more expand ++ after) =
      spell text ++ (more.flatMap printIndex ++ (printExpand expand ++ printRest after)) := by
  cases more with
  | nil => simp [Pattern.nameSteps, printSteps, Step.print]
  | cons index more =>
      rw [Pattern.nameSteps, List.cons_append, printSteps, printRest_nameSteps]
      simp [Step.print, printExpand]

/-- The text that a chain is written as. -/
def Chain.print (chain : Chain) : String := String.ofList (printSteps chain)

mutual

/-- A step with the sources of its destructuring expressions as they are printed. -/
def Step.reprinted : Step → Step
  | .group exclude members => .group exclude (reprintedMembers members)
  | .destructor d => .destructor d.reprinted
  | .name text bracketed expand => .name text bracketed expand
  | .verbatim body => .verbatim body
  | .any => .any
  | .range bounds => .range bounds

def reprintedSteps : List Step → List Step
  | [] => []
  | step :: rest => step.reprinted :: reprintedSteps rest

def reprintedMembers : List (List Step) → List (List Step)
  | [] => []
  | member :: rest => reprintedSteps member :: reprintedMembers rest

end

/-- A chain with the sources of its destructuring expressions as they are printed. -/
def Chain.reprinted (chain : Chain) : Chain := reprintedSteps chain

theorem reprintedSteps_append (first second : List Step) :
    reprintedSteps (first ++ second) = reprintedSteps first ++ reprintedSteps second := by
  induction first with
  | nil => rfl
  | cons step rest ih => simp [reprintedSteps, ih]

theorem reprintedSteps_nameSteps (bracketed : Bool) (text : String) (more : List String)
    (expand : Bool) :
    reprintedSteps (Pattern.nameSteps bracketed text more expand) =
      Pattern.nameSteps bracketed text more expand := by
  induction more generalizing bracketed text with
  | nil => rfl
  | cons index more ih => rw [Pattern.nameSteps, reprintedSteps, ih, Step.reprinted]

end DocPath
