/-!
# Padding

A text laid into a field: cut to `precision` characters, then filled up with spaces to `width`
characters. A centred text has the odd space on its right.
-/

namespace BlockExchange

inductive Alignment
  | left
  | centre
  | right
deriving DecidableEq, Repr

structure Padding where
  align : Alignment := .left
  width : Nat := 0
  precision : Option Nat := none
deriving Repr

namespace Padding

def spaces (n : Nat) : List Char :=
  List.replicate n ' '

def apply (p : Padding) (s : String) : String :=
  let text := match p.precision with
    | none => s.toList
    | some n => s.toList.take n
  let gap := p.width - text.length
  String.ofList <| match p.align with
    | .left => text ++ spaces gap
    | .right => spaces gap ++ text
    | .centre => spaces (gap / 2) ++ text ++ spaces (gap - gap / 2)

end Padding
end BlockExchange
