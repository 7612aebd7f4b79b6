import LinearIR.Instruction.Narrowing

/-!
# Constant folding

One pass narrows the instructions of a code in order and keeps what is known at each of them.
Knowledge covers straight-line code only: it ends at every instruction that may transfer control
and, unless the options say otherwise, at every label. An instruction may be removed if it told
something about its destination and no narrowed instruction reads that destination.
-/

set_option autoImplicit false

namespace LinearIR

structure FoldOptions where
  /-- Forget everything at a label, where control may arrive from elsewhere. Turning this off is
  safe only if every label is reached by falling through alone. -/
  resetAtLabels : Bool := true

namespace Known

/-- What is known at an instruction, from what was known after the one before it. -/
def enter (known : Known) (options : FoldOptions) (instruction : Instruction Value) : Known :=
  if options.resetAtLabels && instruction.isLabel then ∅ else known

def leave (known : Known) (narrowed : Narrowed) : Known :=
  let kept := match narrowed.instruction.result? with
    | some destination => known.forget destination
    | none => known
  let learned := match narrowed.fact? with
    | some (destination, operand) => kept.insert destination operand
    | none => kept
  if narrowed.instruction.transfersControl then ∅ else learned

def after (known : Known) (options : FoldOptions) (instruction : Instruction Value) : Known :=
  let entered := known.enter options instruction
  entered.leave (instruction.narrow entered)

end Known

structure Folded where
  instructions : Code Value
  removable : List Bool
  deriving DecidableEq

namespace Folded

def removableCount (folded : Folded) : Nat :=
  folded.removable.countP id

def live (folded : Folded) : Code Value :=
  (folded.instructions.zip folded.removable).filterMap fun (instruction, removable) =>
    if removable then none else some instruction

end Folded

namespace Code

/-- What is known where the instruction at a position is narrowed. -/
def knownAt (code : Code Value) (options : FoldOptions) (position : Nat) : Known :=
  let before := (code.take position).foldl (·.after options ·) ∅
  match code[position]? with
  | some instruction => before.enter options instruction
  | none => before

def narrowFrom (known : Known) (options : FoldOptions) : Code Value → List Narrowed
  | [] => []
  | instruction :: rest =>
    instruction.narrow (known.enter options instruction) ::
      narrowFrom (known.after options instruction) options rest

private theorem getElem?_narrowFrom_aux (known : Known) (options : FoldOptions)
    (code : Code Value) (position : Nat) :
    (code.narrowFrom known options)[position]? =
      code[position]?.map fun instruction =>
        instruction.narrow
          (((code.take position).foldl (·.after options ·) known).enter options instruction) := by
  induction code generalizing known position with
  | nil => simp [narrowFrom]
  | cons first rest ih =>
      cases position with
      | zero => simp [narrowFrom]
      | succ position => simp [narrowFrom, ih]

theorem getElem?_narrowFrom (options : FoldOptions) (code : Code Value) (position : Nat) :
    (code.narrowFrom ∅ options)[position]? =
      code[position]?.map fun instruction =>
        instruction.narrow (code.knownAt options position) := by
  rw [getElem?_narrowFrom_aux]
  cases found : code[position]? with
  | none => rfl
  | some instruction => simp [knownAt, found]

def reads {V : Type} (code : Code V) : List Variable :=
  code.flatMap Instruction.reads

/-- Whether a narrowed instruction settled its destination, which nothing reads any more. -/
def isRemovable (read : List Variable) (narrowed : Narrowed) : Bool :=
  match narrowed.fact? with
  | some (destination, _) => !read.contains destination
  | none => false

def fold (code : Code Value) (options : FoldOptions) : Folded :=
  let narrowed := code.narrowFrom ∅ options
  let instructions := narrowed.map Narrowed.instruction
  { instructions, removable := narrowed.map (isRemovable (reads instructions)) }

end Code

end LinearIR
