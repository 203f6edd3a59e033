import Emos.Basic

/-!
This module contains how the GUI shell draws lines, curves, circles and polygons. A drawing is the list of the pixels that
are written to the frame buffer, in their order, with their colours. Loops and recursions get fuel, and a drawing
for which it does not suffice has no result.
-/

namespace Emos.Boot

structure Pixel where
  x : Int
  y : Int
  deriving DecidableEq, Repr

namespace drawLine

def column (color : BitVec 32) (x y1 : Int) : Nat → Int → Option (List (Pixel × BitVec 32))
  | 0, _ => none
  | fuel + 1, y =>
    if y ≤ y1 then do
      let next ← checked32 (y + 1)
      let rest ← column color x y1 fuel next
      some ((⟨x, y⟩, color) :: rest)
    else
      some []

def row (color : BitVec 32) (y x1 : Int) : Nat → Int → Option (List (Pixel × BitVec 32))
  | 0, _ => none
  | fuel + 1, x =>
    if x ≤ x1 then do
      let next ← checked32 (x + 1)
      let rest ← row color y x1 fuel next
      some ((⟨x, y⟩, color) :: rest)
    else
      some []

/--
The error and one coordinate after a round.
-/
def advance (moves : Prop) [Decidable moves] (err d z s : Int) : Option (Int × Int) :=
  if moves then do
    let err ← checked32 (err + d)
    let z ← checked32 (z + s)
    some (err, z)
  else
    some (err, z)

def go (color : BitVec 32) (x1 y1 dx dy sx sy : Int)
    : Nat → Int → Int → Int → Option (List (Pixel × BitVec 32))
  | 0, _, _, _ => none
  | fuel + 1, x0, y0, err =>
    if x0 = x1 ∧ y0 = y1 then
      some [(⟨x0, y0⟩, color)]
    else do
      let e2 ← checked32 (2 * err)
      let (err, xNext) ← advance (e2 ≥ dy) err dy x0 sx
      let (err, yNext) ← advance (e2 ≤ dx) err dx y0 sy
      let rest ← go color x1 y1 dx dy sx sy fuel xNext yNext err
      some ((⟨x0, y0⟩, color) :: rest)

end drawLine

def drawLine (fuel : Nat) (x0 y0 x1 y1 : Int) (color : BitVec 32) : Option (List (Pixel × BitVec 32)) :=
  if x0 = x1 then
    let (y0, y1) := if y0 > y1 then (y1, y0) else (y0, y1)
    drawLine.column color x0 y1 fuel y0
  else if y0 = y1 then
    let (x0, x1) := if x0 > x1 then (x1, x0) else (x0, x1)
    drawLine.row color y0 x1 fuel x0
  else do
    let width ← checked32 (x1 - x0)
    let dx ← checked32 width.natAbs
    let sx := if x0 < x1 then 1 else -1
    let height ← checked32 (y1 - y0)
    let absHeight ← checked32 height.natAbs
    let dy := -absHeight
    let sy := if y0 < y1 then 1 else -1
    let err ← checked32 (dx + dy)
    drawLine.go color x1 y1 dx dy sx sy fuel x0 y0 err

def inside (a b c : Int) : Bool := (a ≤ b && b ≤ c) || (c ≤ b && b ≤ a)

def lerp2 (a b : Int) : Option Int := do
  let sum ← checked32 (a + b)
  some (sum >>> (1 : Nat))

/--
The control points of a quadratic curve.
-/
structure Curve where
  x0 : Int
  y0 : Int
  x1 : Int
  y1 : Int
  x2 : Int
  y2 : Int
  deriving DecidableEq, Repr

/--
The assertion of `draw_bezier2_part`.
-/
def drawBezier2Part.assertion (c : Curve) : Option Bool := do
  let a ← checked32 (c.x0 - c.x1)
  let b ← checked32 (c.x2 - c.x1)
  let product ← checked32 (a * b)
  if product ≤ 0 then
    let a ← checked32 (c.y0 - c.y1)
    let b ← checked32 (c.y2 - c.y1)
    let product ← checked32 (a * b)
    some (product ≤ 0)
  else
    some false

/--
The curves for which `draw_bezier2_part` is called, in their order.
-/
def drawBezier2 : Nat → Curve → Option (List Curve)
  | 0, _ => none
  | fuel + 1, c =>
    if inside c.x0 c.x1 c.x2 && inside c.y0 c.y1 c.y2 then
      some [c]
    else do
      let x01 ← lerp2 c.x0 c.x1
      let y01 ← lerp2 c.y0 c.y1
      let x12 ← lerp2 c.x1 c.x2
      let y12 ← lerp2 c.y1 c.y2
      let x012 ← lerp2 x01 x12
      let y012 ← lerp2 y01 y12
      let first ← drawBezier2 fuel ⟨c.x0, c.y0, x01, y01, x012, y012⟩
      let second ← drawBezier2 fuel ⟨x012, y012, x12, y12, c.x2, c.y2⟩
      some (first ++ second)

/--
The variables of `draw_circle`, of which `ddFx` and `ddFy` are how much `f` changes with a step.
-/
structure Circle where
  f : Int
  ddFx : Int
  ddFy : Int
  x : Int
  y : Int
  deriving DecidableEq, Repr

namespace drawCircle

def init (radius : Int) : Option Circle := do
  let f ← checked32 (1 - radius)
  let ddFy ← checked32 (-2 * radius)
  some ⟨f, 1, ddFy, 0, radius⟩

/--
`if (f >= 0)` at the beginning of a round.
-/
def inward (c : Circle) : Option Circle :=
  if c.f ≥ 0 then do
    let y ← checked32 (c.y - 1)
    let ddFy ← checked32 (c.ddFy + 2)
    let f ← checked32 (c.f + ddFy)
    some { c with f, ddFy, y }
  else
    some c

/--
The variables that the pixels of a round are drawn with.
-/
def advance (c : Circle) : Option Circle := do
  let c ← inward c
  let x ← checked32 (c.x + 1)
  let ddFx ← checked32 (c.ddFx + 2)
  let f ← checked32 (c.f + ddFx)
  some { c with f, ddFx, x }

/--
A row of pixels or its ends, in the distances `dx` and `dy` from the center.
-/
def ends (fuel : Nat) (x0 y0 dx dy : Int) (color : BitVec 32) (fill : Bool) : Option (List (Pixel × BitVec 32)) := do
  let y ← checked32 (y0 + dy)
  if fill then do
    let right ← checked32 (x0 + dx)
    let left ← checked32 (x0 - dx)
    drawLine fuel right y left y color
  else
    some [(⟨x0 + dx, y⟩, color), (⟨x0 - dx, y⟩, color)]

/--
What is drawn in a round.
-/
def plot (fuel : Nat) (x0 y0 x y : Int) (color : BitVec 32) (fill : Bool) : Option (List (Pixel × BitVec 32)) := do
  let bottom ← ends fuel x0 y0 x y color fill
  let top ← ends fuel x0 y0 x (-y) color fill
  let below ← ends fuel x0 y0 y x color fill
  let above ← ends fuel x0 y0 y (-x) color fill
  some (bottom ++ top ++ below ++ above)

def go (size : Nat) (x0 y0 : Int) (color : BitVec 32) (fill : Bool) : Nat → Circle → Option (List (Pixel × BitVec 32))
  | 0, _ => none
  | fuel + 1, c =>
    if c.x < c.y then do
      let c ← advance c
      let pixels ← plot size x0 y0 c.x c.y color fill
      let rest ← go size x0 y0 color fill fuel c
      some (pixels ++ rest)
    else
      some []

end drawCircle

/--
The loops of the lines get as much fuel as the one over the rounds.
-/
def drawCircle (fuel : Nat) (x0 y0 radius : Int) (color : BitVec 32) (fill : Bool) : Option (List (Pixel × BitVec 32)) := do
  let c ← drawCircle.init radius
  let middle ← drawCircle.ends fuel x0 y0 radius 0 color fill
  let bottom ← checked32 (y0 + radius)
  let top ← checked32 (y0 - radius)
  let rest ← drawCircle.go fuel x0 y0 color fill fuel c
  some (middle ++ [(⟨x0, bottom⟩, color), (⟨x0, top⟩, color)] ++ rest)

namespace drawPolygon

/--
The edges from every vertex to the next one, and from the last to the first one.
-/
def edges (pts : List Pixel) : List (Pixel × Pixel) := pts.zip (pts.tail ++ pts.take 1)

def maxY : List Pixel → Int → Int
  | [], y => y
  | p :: pts, y => maxY pts (if p.y > y then p.y else y)

def Crosses (y : Int) (p1 p2 : Pixel) : Prop := (p1.y < y ∧ p2.y ≥ y) ∨ (p2.y < y ∧ p1.y ≥ y)

instance (y : Int) (p1 p2 : Pixel) : Decidable (Crosses y p1 p2) := inferInstanceAs (Decidable (_ ∨ _))

/--
There is no result of a division by zero.
-/
def divide32 (a b : Int) : Option Int := if b = 0 then none else checked32 (a.tdiv b)

/--
Where an edge crosses a scan line.
-/
def crossingX (y : Int) (p1 p2 : Pixel) : Option Int := do
  let dy ← checked32 (y - p1.y)
  let width ← checked32 (p2.x - p1.x)
  let product ← checked32 (dy * width)
  let height ← checked32 (p2.y - p1.y)
  let quotient ← divide32 product height
  checked32 (p1.x + quotient)

def maxNodes : Nat := 64

/--
The crossings of a scan line, which are put into an array.
-/
def crossings (y : Int) : List (Pixel × Pixel) → List Int → Option (List Int)
  | [], nodes => some nodes
  | (p1, p2) :: rest, nodes =>
    if Crosses y p1 p2 then do
      let x ← crossingX y p1 p2
      if nodes.length < maxNodes then
        crossings y rest (nodes ++ [x])
      else
        none
    else
      crossings y rest nodes

/--
The inner loop of the sort, which moves a node in front of larger ones. These are given with the last one first.
-/
def sink (node : Int) : List Int → List Int
  | [] => [node]
  | previous :: nodes =>
    if previous > node then
      previous :: sink node nodes
    else
      node :: previous :: nodes

def sort (nodes : List Int) : List Int := (nodes.foldl (fun sorted node => sink node sorted) []).reverse

/--
A last coordinate that is not beyond the screen.
-/
def clip (last size : Int) : Option Int := if last ≥ size then checked32 (size - 1) else some last

/--
The pixels between every two crossings that are on the screen.
-/
def spans (fuel : Nat) (width y : Int) (color : BitVec 32) : List Int → Option (List (Pixel × BitVec 32))
  | xStart :: xEnd :: nodes => do
    let xEnd ← clip xEnd width
    let pixels ← drawLine.row color y xEnd fuel (if xStart < 0 then 0 else xStart)
    let rest ← spans fuel width y color nodes
    some (pixels ++ rest)
  | _ => some []

def scan (size : Nat) (width : Int) (pts : List Pixel) (color : BitVec 32) (maxY : Int)
    : Nat → Int → Option (List (Pixel × BitVec 32))
  | 0, _ => none
  | fuel + 1, y =>
    if y ≤ maxY then do
      let nodes ← crossings y (edges pts) []
      let pixels ← spans size width y color (sort nodes)
      let next ← checked32 (y + 1)
      let rest ← scan size width pts color maxY fuel next
      some (pixels ++ rest)
    else
      some []

end drawPolygon

/--
The control points of a cubic curve.
-/
structure Cubic where
  p0 : Pixel
  p1 : Pixel
  p2 : Pixel
  p3 : Pixel
  deriving DecidableEq, Repr

/--
What a cubic curve is drawn as: a quadratic curve, for which `draw_bezier2` is called, or a straight line.
-/
inductive Stroke where
  | quadratic (c : Curve)
  | line (first last : Pixel)
  deriving DecidableEq, Repr

/--
An entry of the stack of `draw_bezier3`.
-/
structure BezierEntry where
  curve : Cubic
  depth : Nat

namespace drawBezier3

section

variable (overflow : Int → Int)

/--
The value of a number as an `int` or a `long`, where `overflow` is what comes out if it does not fit.
-/
def int32 (n : Int) : Int := if -2 ^ 31 ≤ n ∧ n < 2 ^ 31 then n else overflow n

def mid (a b : Int) : Int := int32 overflow (a + b) >>> (1 : Nat)

def midPoint (p q : Pixel) : Pixel := ⟨mid overflow p.x q.x, mid overflow p.y q.y⟩

def cross (ax ay bx bY : Int) : Int :=
  int32 overflow (int32 overflow (ax * bY) - int32 overflow (ay * bx))

def labs (n : Int) : Int := int32 overflow n.natAbs

/--
The left and the right half of a curve.
-/
def splitBezier3 (c : Cubic) : Cubic × Cubic :=
  let p01 := midPoint overflow c.p0 c.p1
  let p12 := midPoint overflow c.p1 c.p2
  let p23 := midPoint overflow c.p2 c.p3
  let p012 := midPoint overflow p01 p12
  let p123 := midPoint overflow p12 p23
  let p0123 := midPoint overflow p012 p123
  (⟨c.p0, p01, p012, p0123⟩, ⟨p0123, p123, p23, c.p3⟩)

def flatEnough (c : Cubic) : Bool :=
  let dx := int32 overflow (c.p3.x - c.p0.x)
  let dy := int32 overflow (c.p3.y - c.p0.y)
  let distance (p : Pixel) := labs overflow
    (cross overflow dx dy (int32 overflow (p.x - c.p0.x)) (int32 overflow (p.y - c.p0.y)))
  let tolerance := int32 overflow (labs overflow dx + labs overflow dy)
  distance c.p1 ≤ tolerance && distance c.p2 ≤ tolerance

/--
The coordinate of the control point of the quadratic curve that is drawn for a cubic one.
-/
def control (a b c d : Int) : Int :=
  let sum := int32 overflow (int32 overflow (b * 3) + int32 overflow (c * 3))
  int32 overflow (int32 overflow (sum - a) - d) >>> (2 : Nat)

def quadratic (c : Cubic) : Curve :=
  ⟨c.p0.x, c.p0.y, control overflow c.p0.x c.p1.x c.p2.x c.p3.x, control overflow c.p0.y c.p1.y c.p2.y c.p3.y,
    c.p3.x, c.p3.y⟩

/--
`BEZIER3_MAX_SPLIT`, the number of entries of the stack.
-/
def maxSplit : Nat := 24

/--
The stack is given with the entry on top first.
-/
def push (entry : BezierEntry) (stack : List BezierEntry) : Run (List BezierEntry) :=
  if stack.length < maxSplit then .ok (entry :: stack) else .error .access

/--
The pieces that are drawn, in their order.
-/
def go : Nat → List BezierEntry → Run (List Stroke)
  | 0, _ => .error .hang
  | _ + 1, [] => .ok []
  | fuel + 1, e :: stack =>
    if flatEnough overflow e.curve then do
      let rest ← go fuel stack
      .ok (.quadratic (quadratic overflow e.curve) :: rest)
    else if e.depth ≥ maxSplit - 1 then do
      let rest ← go fuel stack
      .ok (.line e.curve.p0 e.curve.p3 :: rest)
    else do
      let (left, right) := splitBezier3 overflow e.curve
      let stack ← push ⟨right, e.depth + 1⟩ stack
      let stack ← push ⟨left, e.depth + 1⟩ stack
      go fuel stack

end

end drawBezier3

def drawBezier3 (overflow : Int → Int) (fuel : Nat) (c : Cubic) : Run (List Stroke) := do
  let stack ← drawBezier3.push ⟨c, 0⟩ []
  drawBezier3.go overflow fuel stack

end Emos.Boot
