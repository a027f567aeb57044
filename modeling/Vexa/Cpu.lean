import Vexa.Emulator

/-!
# The lifter

`vexa::cpu`: the state of one exploration, and the functions that advance it. A path is lifted
instruction by instruction; a fork saves a snapshot of the other side, and when a path ends the
exploration goes on from a saved snapshot.

## Outside code

Remill, the solver and the callbacks are fields of `Machine`. A callback gets the whole engine; here it
may read everything and change what the callbacks of a VCFG recovery change, the virtual program
counter, the jump flag and the option for opaque predicates.

## Exceptions

`THROW` leaves `cpu::run`, so functions that can throw return `Except` and an error carries the text.

## Main definitions

* `Instruction`, `Machine`, `Snapshot`, `Cpu`
* `branching`, `indirectJump`, `handleConditionalMoves`, `liftInstruction`, `processInstruction`
* `Step`, `run` — the loop of `cpu::run`, with any choice of the next path and with the source's
-/

namespace Vexa

/-! ### Instructions -/

/-- The categories of `remill::Instruction` that `lift_instruction` tells apart. -/
inductive Category
  | normal | directJump | conditionalBranch | indirectJump
deriving DecidableEq, Repr

/-- The fields of `remill::Instruction` that the lifter reads. -/
structure Instruction where
  function : String
  category : Category
  branchTakenPc : Addr
  branchNotTakenPc : Addr
  nextPc : Addr
deriving DecidableEq, Repr

namespace Instruction

/-- `Instruction::IsControlFlow`. -/
def isControlFlow (inst : Instruction) : Bool := inst.category ≠ .normal

/-- `Instruction::IsConditionalBranch`. -/
def isConditionalBranch (inst : Instruction) : Bool := inst.category = .conditionalBranch

/-- `Instruction::IsDirectControlFlow`. -/
def isDirectControlFlow (inst : Instruction) : Bool :=
  inst.category = .directJump ∨ inst.category = .conditionalBranch

end Instruction

/-! ### State -/

/-- `vexa::mode_t`. -/
inductive Mode
  | symbolicExploration | cfgRecovery | vcfgRecovery
deriving DecidableEq, Repr

/-- `vexa::cfg_join_policy_t`. -/
inductive CfgJoinPolicy
  | mergeByPc | specializeByPath
deriving DecidableEq, Repr

/-- `vexa::event_kind`. -/
inductive EventKind
  | conditionalTaken | conditionalFallthrough | pathForking | directJump | indirectJump
  | instructionLift
deriving DecidableEq, Repr

/-- `cpu::snapshot`. -/
structure Snapshot where
  memory : Memory
  pc : Addr
  vpc : Addr
  bb : BlockId
  vjmp : Bool
  path : Addr → Option BlockId
  pathConstraints : List Term

/-- `vexa::cpu`, with the builder's function and insertion point and the option that callbacks set.
The top of `unexploredPaths` is its head. -/
structure Cpu where
  symex : Symex
  function : Function
  numBlocks : ℕ
  insertPoint : BlockId
  block : BlockId
  pc : Addr
  vpc : Addr
  vjmp : Bool
  path : Addr → Option BlockId
  cfg : Addr → Option BlockId
  vcfg : Addr → Option BlockId
  pathConstraints : List Term
  unexploredPaths : List Snapshot
  toDelete : List (BlockId × ℕ)
  opaqueSolving : Bool

/-- What a callback sets. -/
structure Virtual where
  vpc : Addr
  vjmp : Bool
  opaqueSolving : Bool

/-- The options of a run and the code outside the repository. -/
structure Machine where
  mode : Mode
  joinPolicy : CfgJoinPolicy
  forkAtCmovs : Bool
  solver : Solver
  registers : List Register
  decodeInstruction : Addr → List (BitVec 8) → Option Instruction
  liftIntoBlock : Instruction → Option Semantics
  callback : EventKind → Cpu → Virtual

/-- No callback is registered. -/
def Machine.Silent (M : Machine) : Prop :=
  ∀ k c, M.callback k c = ⟨c.vpc, c.vjmp, c.opaqueSolving⟩

/-- A machine without registers, program and callbacks. -/
def Machine.bare (S : Solver) : Machine where
  mode := .symbolicExploration
  joinPolicy := .mergeByPc
  forkAtCmovs := false
  solver := S
  registers := []
  decodeInstruction _ _ := none
  liftIntoBlock _ := none
  callback _ c := ⟨c.vpc, c.vjmp, c.opaqueSolving⟩

namespace Cpu

/-- `context::event_handler`. -/
def eventHandler (M : Machine) (k : EventKind) (c : Cpu) : Cpu :=
  let v := M.callback k c
  { c with vpc := v.vpc, vjmp := v.vjmp, opaqueSolving := v.opaqueSolving }

/-- `cpu::take_snapshot`. -/
def takeSnapshot (c : Cpu) (pc : Addr) (bb : BlockId) : Snapshot :=
  ⟨c.symex.context.memory, pc, c.vpc, bb, c.vjmp, c.path, c.pathConstraints⟩

/-- `cpu::restore_snapshot`. -/
def restoreSnapshot (c : Cpu) (ss : Snapshot) : Cpu :=
  { c with
    symex.context.memory := ss.memory
    insertPoint := ss.bb
    pc := ss.pc
    vpc := ss.vpc
    vjmp := ss.vjmp
    path := ss.path
    pathConstraints := ss.pathConstraints }

/-! ### The builder -/

/-- `builder::basic_block`: the block created is number `numBlocks`. -/
def basicBlock (c : Cpu) (pc : Option Addr) : Cpu :=
  { c with
    function := Function.update c.function c.numBlocks ⟨pc, [], [], []⟩
    numBlocks := c.numBlocks + 1 }

def setInsertPoint (c : Cpu) (b : BlockId) : Cpu := { c with insertPoint := b }

/-- Put an instruction at the end of a block. -/
def append (c : Cpu) (b : BlockId) (i : Inst Name) : Cpu :=
  { c with
    function := Function.update c.function b
      { c.function b with insts := (c.function b).insts ++ [i] } }

/-- The builder's `Create` functions. Here the insertion point is always the end of a block. -/
def create (c : Cpu) (i : Inst Name) : Cpu := c.append c.insertPoint i

/-- `VEXA_EXEC` of an instruction the builder creates. -/
def exec (M : Machine) (i : Inst Name) (c : Cpu) : Except String Cpu := do
  return { c.create i with symex := ← visit M.solver c.pathConstraints i c.symex }

/-- `builder::deleteLater` of the instruction at a position of a block. -/
def deleteLater (c : Cpu) (b : BlockId) (position : ℕ) : Cpu :=
  { c with toDelete := c.toDelete ++ [(b, position)] }

/-- `builder::eraseDeletedInstructions`. -/
def eraseDeletedInstructions (c : Cpu) : Cpu :=
  { c with
    function := fun b => { c.function b with
      insts := ((c.function b).insts.zipIdx.filter fun i => (b, i.2) ∉ c.toDelete).map Prod.fst }
    toDelete := [] }

/-! ### Registers -/

/-- `cpu::read_register`. -/
def readRegister (M : Machine) (reg : Register) (c : Context) : Value × Context :=
  c.read M.solver (.concrete reg.offset statePage) (reg.size * 8)

/-- `cpu::write_register`. -/
def writeRegister (M : Machine) (reg : Register) (val : Value) (c : Context) : Context :=
  c.write M.solver (.concrete reg.offset statePage) val

/-- One round of the loop of `solve_cpu_context`. -/
def solveRegister (M : Machine) (pathConstraints : List Term) (c : Context) (reg : Register) :
    Context :=
  if reg.hasParent ∨ reg.size < 8 then c
  else
    let read := readRegister M reg c
    let value := read.1.simplifyUnder M.solver pathConstraints read.2.checks
    let c := { read.2 with checks := value.2 }
    if (value.1.simplify M.solver).isConcrete then
      writeRegister M reg (value.1.simplify M.solver) c
    else c

/-- `cpu::solve_cpu_context`. -/
def solveCpuContext (M : Machine) (c : Cpu) : Cpu :=
  { c with symex.context := M.registers.foldl (solveRegister M c.pathConstraints) c.symex.context }

end Cpu

/-! ### Branches -/

/-- A value of the lifted function and its symbolic value (`vexa::dual_value`). -/
structure DualValue where
  l : Operand Name
  v : Value

/-- The value operand of the last store to a pointer, with its width. -/
def lastStore (ptr : Ptr Name) (insts : List (Inst Name)) : Option (ℕ × Operand Name) :=
  insts.reverse.findSome? fun
    | .store w value p => if p = ptr then some (w, value) else none
    | _ => none

section

variable (M : Machine)

/-- `cpu::get_condition`. The builder folds the truncation of a constant, and running the null
instruction that is left crashes. -/
def getCondition (c : Cpu) : Except String (DualValue × Cpu) :=
  match lastStore .branchTaken (c.function c.block).insts with
  | some (w, .ssa name) => do
    let dst : Name := ⟨c.block, 0, (0, 1)⟩
    let c ← c.exec M (.cast dst .trunc w 1 (.ssa name))
    return (⟨.ssa dst, ← c.symex.get (.ssa dst)⟩, c)
  | some (_, .const ..) => throw "null instruction"
  | none => throw "Couldn't get condition"

/-- `cpu::get_next_pc`. -/
def getNextPc (c : Cpu) : Except String DualValue :=
  match lastStore .nextPc (c.function c.block).insts with
  | some (_, value) => do return ⟨value, ← c.symex.get value⟩
  | none => throw "Couldn't get next pc"

/-- `cpu::opaque_solver`: the verdict, and the condition after it was rewritten in place. -/
def opaqueSolver (condition : Value) : Except String (Option Bool × Value) := do
  let condition := condition.simplify M.solver
  if condition.isConcrete then return (some ((← condition.asUint64?) ≠ 0), condition)
  else return (none, condition)

/-- The part of `branching` that forks. -/
def forkPath (condition : DualValue) (jumpPc fallthroughPc : Addr) (c : Cpu) : Cpu :=
  let jumpBb := c.numBlocks
  let c := c.basicBlock none
  let fallthroughBb := c.numBlocks
  let c := c.basicBlock none
  let baseSnapshot := c.takeSnapshot c.pc c.block
  -- save fallthrough path
  let c := { c with pathConstraints := c.pathConstraints ++ [condition.v.not.term] }
  let c := c.solveCpuContext M
  let c := { c with unexploredPaths := c.takeSnapshot fallthroughPc fallthroughBb :: c.unexploredPaths }
  -- reset context
  let c := c.restoreSnapshot baseSnapshot
  -- create conditional jump
  let c := (c.create (.condBr condition.l jumpBb fallthroughBb)).setInsertPoint jumpBb
  -- set execution to taken path
  let c := { c with pathConstraints := c.pathConstraints ++ [condition.v.asExprBool] }
  let c := { c.solveCpuContext M with pc := jumpPc }
  c.eventHandler M .pathForking

/-- `cpu::branching`. -/
def branching (condition : DualValue) (jumpPc fallthroughPc : Addr) (c : Cpu) :
    Except String Cpu := do
  if c.opaqueSolving then
    let verdict ← opaqueSolver M condition.v
    let condition := { condition with v := verdict.2 }
    match verdict.1 with
    | some true =>
      return { c with
        pc := jumpPc
        pathConstraints := c.pathConstraints ++ [condition.v.asExprBool] }.eventHandler M
          .conditionalTaken
    | some false =>
      return { c with
        pc := fallthroughPc
        pathConstraints := c.pathConstraints ++ [condition.v.not.term] }.eventHandler M
          .conditionalFallthrough
    | none => return forkPath M condition jumpPc fallthroughPc c
  else return forkPath M condition jumpPc fallthroughPc c

/-! ### Conditional moves -/

/-- The instruction of a block that defines a name. -/
def definition (insts : List (Inst Name)) (name : Name) : Option (Inst Name) :=
  insts.find? fun i => (i.result.map Prod.fst) = some name

/-- `peel_select`: the select behind a chain of casts and of `and` on the first operand, and the
chain, outermost first. The chain is no longer than the block. -/
def peelSelect (insts : List (Inst Name)) :
    ℕ → Operand Name → Option (Inst Name × List (Inst Name))
  | fuel + 1, .ssa name =>
    match definition insts name with
    | some (.select dst w c a b) => some (.select dst w c a b, [])
    | some (.cast dst op src w a) =>
      (peelSelect insts fuel a).map fun r => (r.1, .cast dst op src w a :: r.2)
    | some (.binary dst .and w a b) =>
      (peelSelect insts fuel a).map fun r => (r.1, .binary dst .and w a b :: r.2)
    | _ => none
  | _, _ => none

/-- What `handle_conditional_moves` looks for. -/
structure ConditionalMove where
  position : ℕ
  width : ℕ
  ptr : Ptr Name
  condition : Operand Name
  trueValue : Operand Name
  falseValue : Operand Name
  wrappers : List (Inst Name)

/-- The last store of a value that has a select behind it. -/
def findConditionalMove (insts : List (Inst Name)) : Option ConditionalMove :=
  insts.zipIdx.reverse.findSome? fun
    | (.store w value ptr, position) =>
      match peelSelect insts insts.length value with
      | some (.select _ _ c a b, wrappers) => some ⟨position, w, ptr, c, a, b, wrappers⟩
      | _ => none
    | _ => none

/-- A clone of a wrapper with another first operand, for one of the two sides. -/
def cloneWrapper (side : ℕ) (value : Operand Name) : Inst Name → Name × Inst Name
  | .cast dst op src w _ => let name := { dst with part := (0, side) }; (name, .cast name op src w value)
  | .binary dst op w _ b => let name := { dst with part := (0, side) }; (name, .binary name op w value b)
  | i => (⟨0, 0, (0, side)⟩, i)

/-- `materialize`: the wrappers, innermost first, around another value. -/
def materialize (side : ℕ) : List (Inst Name) → Operand Name → Cpu → Except String (Operand Name × Cpu)
  | [], value, c => return (value, c)
  | wrapper :: wrappers, value, c => do
    let cloned := cloneWrapper side value wrapper
    let c ← c.exec M cloned.2
    materialize side wrappers (.ssa cloned.1) c

/-- Whether `handle_conditional_moves` takes the condition as solved. -/
def solveMove (cond : Value) (c : Cpu) : Except String (Option Bool × Value) :=
  if c.opaqueSolving ∧ M.mode ≠ .vcfgRecovery then opaqueSolver M cond else return (none, cond)

/-- The fork of `handle_conditional_moves`: each side stores its own value. -/
def forkMove (inst : Instruction) (block : BlockId) (move : ConditionalMove)
    (trueVal falseVal : Operand Name) (c : Cpu) : Except String Cpu := do
  let baseSnapshot := c.takeSnapshot c.pc block
  let trueBlock := c.numBlocks
  let c := c.basicBlock none
  let falseBlock := c.numBlocks
  let c := (c.basicBlock none).create (.condBr move.condition trueBlock falseBlock)
  let c ← (c.setInsertPoint falseBlock).exec M (.store move.width falseVal move.ptr)
  let c := { c with unexploredPaths := c.takeSnapshot inst.nextPc falseBlock :: c.unexploredPaths }
  let c := (c.restoreSnapshot baseSnapshot).setInsertPoint trueBlock
  let c ← c.exec M (.store move.width trueVal move.ptr)
  return c.deleteLater block move.position

/-- `cpu::handle_conditional_moves`. -/
def handleConditionalMoves (inst : Instruction) (c : Cpu) : Except String Cpu :=
  match findConditionalMove (c.function c.block).insts with
  | none => throw "Error during handling CMOVxx"
  | some move => do
    let block := c.block
    let cond ← c.symex.get move.condition
    let trueVal ← materialize M 3 move.wrappers.reverse move.trueValue c
    let falseVal ← materialize M 4 move.wrappers.reverse move.falseValue trueVal.2
    let c := falseVal.2
    let verdict ← solveMove M cond c
    match verdict.1 with
    | some result =>
      (c.deleteLater block move.position).exec M
        (.store move.width (if result then trueVal.1 else falseVal.1) move.ptr)
    | none => forkMove M inst block move trueVal.1 falseVal.1 c

/-! ### Lifting one instruction -/

/-- How `process_instruction` returns. -/
inductive Outcome
  /-- the program counter is zero -/
  | functionEnded
  /-- the path was joined to a block -/
  | edgeRebuilt (target : BlockId)
  | decodeFailed
  | liftFailed (block : BlockId)
  /-- the instruction was lifted into the block and the path goes on -/
  | lifted (block : BlockId)
  /-- the instruction was lifted into the block but its jump has no known target -/
  | unresolved (block : BlockId)
deriving DecidableEq, Repr

/-- `cpu::internal_lifter_status`. -/
inductive LifterStatus
  | successful | exploreOtherPaths | functionEnded
deriving DecidableEq, Repr

def Outcome.status : Outcome → LifterStatus
  | functionEnded => .functionEnded
  | edgeRebuilt _ | decodeFailed | liftFailed _ | unresolved _ => .exploreOtherPaths
  | lifted _ => .successful

/-- `value::as_uint64` of a term. -/
def asUint64? (t : Term) : Except String Addr := (Value.ofTerm t).asUint64?

/-- Record the targets of the jump at the end of the current block. -/
def Cpu.setTargets (c : Cpu) (targets : List Addr) : Cpu :=
  { c with
    function := Function.update c.function c.block { c.function c.block with targets := targets } }

/-- The indirect jumps of `lift_instruction`. -/
def indirectJump (c : Cpu) : Except String (Outcome × Cpu) := do
  let nextDual ← getNextPc c
  let next := nextDual.v.simplify M.solver
  let c := { c with symex := c.symex.setOperand nextDual.l next }
  if next.isConcrete then do
    let target ← next.asUint64?
    return (.lifted c.block, { c.setTargets [target] with pc := target }.eventHandler M .indirectJump)
  else do
    let found := possibleValues M.solver c.pathConstraints c.symex.context.checks next.term
    let c := { c with symex.context.checks := found.2.2 }
    match found.1 with
    -- one path
    | [addr] => do
      let target ← asUint64? addr
      return (.lifted c.block, { c.setTargets [target] with pc := target })
    -- two paths
    | [front, back] => do
      let jumpPc ← asUint64? front
      let fallthroughPc ← asUint64? back
      let dst : Name := ⟨c.block, 0, (0, 2)⟩
      let c ← (c.setTargets [jumpPc, fallthroughPc]).exec M
        (.icmp dst .eq 64 nextDual.l (.const 64 jumpPc.toNat))
      let cond ← c.symex.get (.ssa dst)
      return (.lifted c.block, ← branching M ⟨.ssa dst, cond⟩ jumpPc fallthroughPc c)
    | _ => return (.unresolved c.block, c)

/-- The control flow part of `lift_instruction`. -/
def controlFlow (inst : Instruction) (c : Cpu) : Except String (Outcome × Cpu) :=
  if inst.isControlFlow then
    if inst.isConditionalBranch then do
      let cond ← getCondition M c
      return (.lifted c.block,
        ← branching M cond.1 inst.branchTakenPc inst.branchNotTakenPc cond.2)
    else if inst.isDirectControlFlow then
      return (.lifted c.block, { c with pc := inst.branchTakenPc }.eventHandler M .directJump)
    else indirectJump M c
  else if inst.function.startsWith "CMOV" ∧ M.forkAtCmovs then do
    let c ← handleConditionalMoves M inst c
    return (.lifted c.block, { c with pc := inst.nextPc })
  else return (.lifted c.block, { c with pc := inst.nextPc })

/-- The maps a lifted block is saved in. -/
def saveBlock (c : Cpu) : Cpu :=
  match M.mode, M.joinPolicy with
  | .cfgRecovery, .specializeByPath => { c with path := Function.update c.path c.pc (some c.block) }
  | .cfgRecovery, .mergeByPc => { c with cfg := Function.update c.cfg c.pc (some c.block) }
  | .vcfgRecovery, .specializeByPath =>
    if (c.path c.vpc).isSome then c
    else { c with path := Function.update c.path c.vpc (some c.block) }
  | .vcfgRecovery, .mergeByPc =>
    if (c.vcfg c.vpc).isSome then c
    else { c with vcfg := Function.update c.vcfg c.vpc (some c.block) }
  | .symbolicExploration, _ => c

/-- A block for the instruction at the program counter, and the edge to it. -/
def openBlock (c : Cpu) : Cpu :=
  let b := c.numBlocks
  let c := (c.basicBlock (some c.pc)).create (.br b)
  { c.setInsertPoint b with block := b }

/-- Remill's semantics are put into the current block and the block is emulated. -/
def runLifted (semantics : Semantics) (c : Cpu) : Except String Cpu := do
  let block := c.function c.block
  let insts := block.insts ++ semantics.insts.map (Inst.map (Name.lifted c.block))
  let r ← runBlock M.solver c.pathConstraints insts c.symex
  return { c with
    symex := r.2
    function := Function.update c.function c.block
      { block with insts := r.1.insts, resolutions := r.1.resolutions } }

/-- `cpu::lift_instruction`. -/
def liftInstruction (inst : Instruction) (c : Cpu) : Except String (Outcome × Cpu) := do
  let c := (openBlock c).eventHandler M .instructionLift
  let c ← c.exec M (.store 64 (.const 64 c.pc.toNat) .nextPc)
  match M.liftIntoBlock inst with
  | none => return (.liftFailed c.block, { c.create .unreachable with pc := -1 })
  | some semantics => do
    let c ← runLifted M semantics c
    controlFlow M inst (saveBlock M c)

/-- `cpu::CFG_recovery`: the block the path is joined to, if there is one. -/
def cfgRecovery (c : Cpu) : Option BlockId × Cpu :=
  match M.mode, M.joinPolicy with
  | .cfgRecovery, .specializeByPath =>
    match c.path c.vpc with
    | some lifted => (some lifted, { c.create (.br lifted) with vjmp := false })
    | none => (none, c)
  | .cfgRecovery, .mergeByPc =>
    match c.cfg c.pc with
    | some lifted => (some lifted, c.create (.br lifted))
    | none => (none, c)
  | .vcfgRecovery, policy =>
    if ¬ c.vjmp then (none, c)
    else
      match (match policy with | .specializeByPath => c.path | .mergeByPc => c.vcfg) c.vpc with
      | some lifted => (some lifted, { c.create (.br lifted) with vjmp := false })
      | none => (none, { c with vjmp := false })
  | .symbolicExploration, _ => (none, c)

/-- The byte the fetch loop takes from an address, if it is a known one. The shift of a 64-bit number
is modulo its width, as the machine does it. -/
def fetchByte (page : MemPage) (address : Addr) : Option (BitVec 8) :=
  match page.find address with
  | some cell =>
    match cell.originalVal.asUint64 with
    | some fullVal => some ((fullVal >>> (cell.whichByte * 8 % 64)).setWidth 8)
    | none => none
  | none => none

/-- The fetch loop of `process_instruction`: up to `n` bytes. -/
def fetch (page : MemPage) (address : Addr) : ℕ → List (BitVec 8)
  | 0 => []
  | n + 1 =>
    match fetchByte page address with
    | some byte => byte :: fetch page (address + 1) n
    | none => []

/-- `cpu::process_instruction`. -/
def processInstruction (c : Cpu) : Except String (Outcome × Cpu) :=
  if c.pc = 0 then return (.functionEnded, c)
  else
    match cfgRecovery M c with
    | (some target, c) => return (.edgeRebuilt target, c)
    | (none, c) =>
      match M.decodeInstruction c.pc (fetch (c.symex.context.memory globalPage) c.pc 15) with
      | none => return (.decodeFailed, c)
      | some inst => liftInstruction M inst c

/-! ### The exploration -/

/-- What `cpu::run` does to the block of a path that ended. -/
def finishPath (outcome : Outcome) (c : Cpu) : Cpu :=
  match outcome.status with
  | .functionEnded => c.create .ret
  | .exploreOtherPaths | .successful => c

/-- Going on from a saved path. -/
def resumePath (c : Cpu) (path : Snapshot) (rest : List Snapshot) : Cpu :=
  { c with unexploredPaths := rest }.restoreSnapshot path

/-- One round of the loop of `cpu::run` that does not leave it, with any choice of the path to go on
with. -/
inductive Step : Cpu → Outcome → Cpu → Prop
  | successful {c c' : Cpu} {outcome : Outcome} :
      processInstruction M c = .ok (outcome, c') → outcome.status = .successful →
      Step c outcome c'
  | explore {c c' : Cpu} {outcome : Outcome} {before after : List Snapshot} {path : Snapshot} :
      processInstruction M c = .ok (outcome, c') → outcome.status ≠ .successful →
      c'.unexploredPaths = before ++ path :: after →
      Step c outcome (resumePath (finishPath outcome c') path (before ++ after))

/-- A path that ended: how, and the state then. -/
structure PathEnd where
  outcome : Outcome
  state : Cpu

/-- The loop of `cpu::run`, with the paths that ended. `none` means that the fuel is used up. -/
def runLoop : ℕ → Cpu → List PathEnd → Except String (Option (List PathEnd × Cpu))
  | 0, _, _ => return none
  | fuel + 1, c, ended =>
    match processInstruction M c with
    | .error text => throw text
    | .ok (outcome, c') =>
      if outcome.status = .successful then runLoop fuel c' ended
      else
        let final := finishPath outcome c'
        match final.unexploredPaths with
        | [] => return some (ended ++ [⟨outcome, final⟩], final)
        | path :: rest => runLoop fuel (resumePath final path rest) (ended ++ [⟨outcome, final⟩])

/-! ### The start -/

/-- The registers `initialize_arch` makes symbolic. -/
def initRegisters : List Register → Context → Context
  | [], c => c
  | r :: rs, c =>
    if r.hasParent then initRegisters rs c
    else
      let value := c.symbolic (.register r) (r.size * 8)
      initRegisters rs (value.2.write M.solver (gep statePtr r.offset) value.1)

/-- The offsets of the registers `cpu::run` sets up itself. -/
structure Layout where
  sp : Addr
  gsBase : Addr

/-- The stores of the entry block: the stack pointer, and zero as the return address. -/
def entryBlock (layout : Layout) : List (Inst Name) :=
  [.store 64 (.const 64 (-8 : Addr).toNat) (.state layout.sp), .store 64 (.const 64 0) (.stack (-8))]

/-- The context once the process environment is written: the base of the `GS` segment, the address
of the process environment block there, and the image base in it. -/
def initEnvironment (layout : Layout) (c : Context) : Context :=
  let c := c.write M.solver (gep statePtr layout.gsBase) (.concrete 0x7fffff000000 64)
  let c := c.write M.solver (.concrete (0x7fffff000000 + 0x60) globalPage) (.concrete 0x7fffff800000 64)
  c.write M.solver (.concrete (0x7fffff800000 + 0x10) globalPage) (.concrete 0x140000000 64)

/-- The state in which `cpu::run` enters its loop: `image` is global memory. -/
def start (layout : Layout) (image : MemPage) (opaqueSolving : Bool) (pc : Addr) :
    Except String Cpu := do
  let memory : Memory := Function.update (fun _ => .empty) globalPage image
  let c := initRegisters M M.registers ⟨memory, 0, 0⟩
  let r ← runBlock M.solver [] (entryBlock layout) ⟨c, fun _ => none⟩
  return {
    symex := { r.2 with context := initEnvironment M layout r.2.context }
    function := Function.update (fun _ => ⟨none, [], [], []⟩) 0 ⟨none, r.1.insts, [], []⟩
    numBlocks := 1
    insertPoint := 0
    block := 0
    pc := pc
    vpc := 0
    vjmp := false
    path := fun _ => none
    cfg := fun _ => none
    vcfg := fun _ => none
    pathConstraints := []
    unexploredPaths := []
    toDelete := []
    opaqueSolving := opaqueSolving }

/-- `cpu::run`. -/
def run (layout : Layout) (image : MemPage) (opaqueSolving : Bool) (pc : Addr) (fuel : ℕ) :
    Except String (Option (List PathEnd × Cpu)) := do
  match ← runLoop M fuel (← start M layout image opaqueSolving pc) [] with
  | some (ended, c) => return some (ended, c.eraseDeletedInstructions)
  | none => return none

end

end Vexa
