import LuaBytecode.Proto.Basic
import LuaBytecode.Number.FloatText
import LuaBytecode.Text.Quoted
/-!
# Listings and disassembly

Two texts of a prototype. `Proto.listing` is one line: the register count and the number of
locals, then every instruction in its compact form, separated by `; `. `Proto.disassembly` is
the full report: a header, the constant pool, the locals with the instructions during which
they live, the upvalues with where they come from, every instruction with its source line (and
the target of a jump), then each nested prototype's report in turn.

`Proto.preorder` lists a prototype and all the prototypes nested in it, depth first.
-/

namespace LuaBytecode

/-- How a constant appears in a disassembly: strings quoted, other values as Lua shows them. -/
def Constant.render : Constant → String
  | .nil => "nil"
  | .bool b => if b then "true" else "false"
  | .int n => toString n.toInt
  | .float bits => FloatText.render (Float.ofBits bits)
  | .str s => Text.quote s

namespace Proto

/-- Writes `n` with at least four digits, padded with zeros on the left. -/
def pcText (n : Nat) : String :=
  let s := toString n
  String.ofList (List.replicate (4 - s.length) '0') ++ s

/-- The one-line listing `[stack/locals] inst; inst; …`. -/
def listing (p : Proto) : String :=
  "[" ++ toString p.maxStack ++ "/" ++ toString p.locals.size ++ "] " ++
    "; ".intercalate (p.code.toList.map Instruction.render)

/-- The report on one prototype alone, without its nested prototypes. -/
def report (p : Proto) : String :=
  let name := if p.source.isEmpty then "<?>" else p.source
  let header := "== " ++ name ++ ":" ++ toString p.lineDefined ++ " ==  (params=" ++
    toString p.numParams ++ ", vararg=" ++ (if p.isVararg then "true" else "false") ++
    ", stack=" ++ toString p.maxStack ++ ")\n"
  let constants :=
    if p.constants.isEmpty then ""
    else "constants:\n" ++ String.join (p.constants.toList.mapIdx fun i k =>
      "  [K" ++ toString i ++ "]  " ++ k.render ++ "\n")
  let locals :=
    if p.locals.isEmpty then ""
    else "locals:\n" ++ String.join (p.locals.toList.mapIdx fun i l =>
      "  [L" ++ toString i ++ "]  " ++ l.name ++ "  pc " ++ toString l.startPc ++ ".." ++
        toString l.endPc ++ "\n")
  let upvalues :=
    if p.upvalues.isEmpty then ""
    else "upvalues:\n" ++ String.join (p.upvalues.toList.mapIdx fun i u =>
      let source := match u with
        | .register reg => "stack reg=" ++ toString reg
        | .upvalue idx => "upvalue idx=" ++ toString idx
      "  [U" ++ toString i ++ "]  " ++ p.upvalueNames.getD i "?" ++ "  " ++ source ++ "\n")
  let code := "instructions:\n" ++ String.join (p.code.toList.mapIdx fun pc inst =>
    let target :=
      if inst.isJump then "  ; to " ++ toString ((pc : Int) + 1 + inst.sbx) else ""
    "  " ++ pcText pc ++ "  [" ++ toString (p.lines.getD pc 0) ++ "]  " ++ inst.render ++
      target ++ "\n")
  header ++ constants ++ locals ++ upvalues ++ code

/-- The full report: this prototype's, then for each nested prototype a separating line and
its full report. -/
def disassembly (p : Proto) : String :=
  p.report ++ String.join (p.protos.attach.toList.mapIdx fun i sub =>
    "\n-- sub-proto " ++ toString i ++ " (of " ++ p.source ++ ") --\n" ++ sub.1.disassembly)
termination_by sizeOf p
decreasing_by
  have h := Array.sizeOf_lt_of_mem sub.2
  cases p
  simp only [Proto.mk.sizeOf_spec] at h ⊢
  omega

/-- This prototype and every prototype nested in it, each before those nested in it, and
siblings in order. -/
def preorder (p : Proto) : List Proto :=
  p :: (p.protos.attach.toList.map fun sub => sub.1.preorder).flatten
termination_by sizeOf p
decreasing_by
  have h := Array.sizeOf_lt_of_mem sub.2
  cases p
  simp only [Proto.mk.sizeOf_spec] at h ⊢
  omega

end Proto

end LuaBytecode
