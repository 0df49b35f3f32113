import Mathlib.Data.List.DropRight

namespace Ore.WorkspacePaths

abbrev Path := List UInt8

def slash : UInt8 := 47
def dot : UInt8 := 46

def orePathMax : Nat := 4096

/-- What a C string shows of a buffer. -/
def cstr (p : Path) : Path := p.takeWhile (· ≠ 0)

def pathDirname (path : Path) : Path := (path.rdropWhile (· ≠ slash)).dropLast

def joinPath (dir rel : Path) : Option Path :=
  if rel.head? = some slash then if rel.length + 1 > orePathMax then none else some rel
  else if dir.length + 1 + rel.length + 1 > orePathMax then none
  else if dir = [] ∨ dir.getLast? ≠ some slash then some (dir ++ [slash] ++ rel)
  else some (dir ++ rel)

def popComponent (out : Path) : Path :=
  if out.length > 1 then
    (if out.getLast? = some slash then out.dropLast else out).rdropWhile (· ≠ slash)
  else out

def pushComponent (outCap : Nat) (out component : Path) : Option Path :=
  if component = [dot] then some out
  else if component = [dot, dot] then some (popComponent out)
  else
    let sep := out ≠ [] ∧ out.getLast? ≠ some slash
    if sep ∧ out.length + 1 ≥ outCap then none
    else
      let out := if sep then out ++ [slash] else out
      if out.length + component.length ≥ outCap then none else some (out ++ component)

/-- Drop trailing slashes behind the first byte. -/
def trimSlashes (out : Path) : Path := out.take 1 ++ (out.drop 1).rdropWhile (· = slash)

/-- The lexical normal form; an empty one stands for a failure. -/
def pathNormalize (dir rel : Path) (outCap : Nat) : Path :=
  if outCap < 2 then []
  else
    match joinPath dir rel with
    | none => []
    | some buf =>
        let start := if buf.head? = some slash then [slash] else []
        let components := (buf.splitOn slash).filter (· ≠ [])
        ((components.foldlM (pushComponent outCap) start).map trimSlashes).getD []

end Ore.WorkspacePaths
