import DataStructAlgorithm.Foundation.Contents
import DataStructAlgorithm.Foundation.Conversions

/-! # The sorting functions of `Algorithm/Sort/sort.h`

An array is not null, so that `assert(a)` holds. A variable of type `size_t` is a natural
number and one of type `int` an integer; the conversions between them are written out, and a
sum of `int` that leaves their range is a fault. `last` is the variable `end` of the source. -/

namespace DataStructAlgorithm.Algorithm.Sort

open Foundation

variable (span : Span)

/-! ## Insertion -/

/-- One pass of `while (end >= 0)`. -/
def shiftPass (gap tamp : Int) (state : Contents Int × Int) :
    Outcome (Pass (Contents Int × Int) (Contents Int × Int)) :=
  match state with
  | (a, last) =>
      if last ≥ 0 then do
        let entry ← load span a last
        if entry > tamp then do
          let target ← addInt last gap
          let a ← store span a target entry
          pure (.again (a, last - gap))
        else pure (.leave (a, last))
      else .ok (.leave (a, last))

/-- The body of the `for` loop of `ShellSort`. -/
def insertAt (fuel : Nat) (gap : Int) (a : Contents Int) (i : Nat) : Outcome (Contents Int) := do
  let source ← addInt (toInt i) gap
  let tamp ← load span a source
  let (a, last) ← repeatLoop (shiftPass span gap tamp) fuel (a, toInt i)
  let target ← addInt last gap
  store span a target tamp

/-- One pass of the `for` loop of `ShellSort`. -/
def gapPass (fuel sz : Nat) (gap : Int) (state : Contents Int × Nat) :
    Outcome (Pass (Contents Int × Nat) (Contents Int)) :=
  match state with
  | (a, i) =>
      if i < toSize (sz - gap) then do
        let a ← insertAt span fuel gap a i
        pure (.again (a, i + 1))
      else .ok (.leave a)

/-- `InsertSort`, which is the `for` loop of `ShellSort` with a gap of one. -/
def insertSort (fuel : Nat) (a : Contents Int) (sz : Nat) : Outcome (Contents Int) :=
  repeatLoop (gapPass span fuel sz 1) fuel (a, 0)

/-- One pass of `while (gap > 1)`. -/
def shellPass (fuel sz : Nat) (state : Contents Int × Int) :
    Outcome (Pass (Contents Int × Int) (Contents Int)) :=
  match state with
  | (a, gap) =>
      if gap > 1 then do
        let gap := gap.tdiv 3 + 1
        let a ← repeatLoop (gapPass span fuel sz gap) fuel (a, 0)
        pure (.again (a, gap))
      else .ok (.leave a)

/-- `ShellSort` -/
def shellSort (fuel : Nat) (a : Contents Int) (sz : Nat) : Outcome (Contents Int) :=
  repeatLoop (shellPass span fuel sz) fuel (a, toInt sz)

/-! ## Selection -/

/-- One pass of the `for` loop of `SelectSort`, with the indices `i`, `max` and `min`. -/
def extremesPass (a : Contents Int) (right : Nat) (state : Nat × Nat × Nat) :
    Outcome (Pass (Nat × Nat × Nat) (Nat × Nat)) :=
  match state with
  | (i, max, min) =>
      if i ≤ right then do
        let greatest ← load span a max
        let least ← load span a min
        let entry ← load span a i
        let max := if greatest < entry then i else max
        let min := if least > entry then i else min
        pure (.again (i + 1, max, min))
      else .ok (.leave (max, min))

/-- One pass of `while (left < right)`. -/
def selectPass (fuel : Nat) (state : Contents Int × Nat × Nat) :
    Outcome (Pass (Contents Int × Nat × Nat) (Contents Int)) :=
  match state with
  | (a, left, right) =>
      if left < right then do
        let (max, min) ← repeatLoop (extremesPass span a right) fuel (left, left, left)
        let a ← swapAt span a min left
        let max := if max = left then min else max
        let a ← swapAt span a max right
        pure (.again (a, left + 1, right - 1))
      else .ok (.leave a)

/-- `SelectSort` -/
def selectSort (fuel : Nat) (a : Contents Int) (sz : Nat) : Outcome (Contents Int) :=
  repeatLoop (selectPass span fuel) fuel (a, 0, toSize (sz - 1))

/-! ## Heaps -/

/-- The child that `AdjustDown` compares with its parent. -/
def largerChild (a : Contents Int) (child n : Nat) : Outcome Nat :=
  if child + 1 < n then do
    let left ← load span a child
    let right ← load span a (child + 1)
    pure (if left < right then child + 1 else child)
  else .ok child

/-- One pass of the loop of `AdjustDown`, where `child` is `parent * 2 + 1`. -/
def adjustPass (n : Nat) (state : Contents Int × Nat) :
    Outcome (Pass (Contents Int × Nat) (Contents Int)) :=
  match state with
  | (a, parent) =>
      if parent * 2 + 1 < n then do
        let child ← largerChild span a (parent * 2 + 1) n
        let above ← load span a parent
        let below ← load span a child
        if above < below then do
          let a ← swapAt span a parent child
          pure (.again (a, child))
        else pure (.leave a)
      else .ok (.leave a)

/-- `AdjustDown` -/
def adjustDown (fuel : Nat) (a : Contents Int) (parent n : Nat) : Outcome (Contents Int) :=
  repeatLoop (adjustPass span n) fuel (a, parent)

/-- One pass of the `for` loop of `HeapSort`. -/
def buildPass (fuel sz : Nat) (state : Contents Int × Int) :
    Outcome (Pass (Contents Int × Int) (Contents Int)) :=
  match state with
  | (a, i) =>
      if i ≥ 0 then do
        let a ← adjustDown span fuel a (toSize i) sz
        pure (.again (a, i - 1))
      else .ok (.leave a)

/-- One pass of `while (end > 0)`. -/
def extractPass (fuel : Nat) (state : Contents Int × Int) :
    Outcome (Pass (Contents Int × Int) (Contents Int)) :=
  match state with
  | (a, last) =>
      if last > 0 then do
        let a ← swapAt span a 0 last
        let a ← adjustDown span fuel a 0 (toSize (last - 1))
        pure (.again (a, last - 1))
      else .ok (.leave a)

/-- `HeapSort` -/
def heapSort (fuel : Nat) (a : Contents Int) (sz : Nat) : Outcome (Contents Int) := do
  let a ← repeatLoop (buildPass span fuel sz) fuel (a, toInt (toSize (sz - 2) / 2))
  repeatLoop (extractPass span fuel) fuel (a, toInt (toSize (sz - 1)))

/-! ## Exchanging neighbours -/

/-- One pass of the `for` loop of `BubbleSort`. -/
def neighbourPass (last : Int) (state : Contents Int × Int × Bool) :
    Outcome (Pass (Contents Int × Int × Bool) (Contents Int × Bool)) :=
  match state with
  | (a, i, exchange) =>
      if i < last then do
        let before ← load span a (i - 1)
        let entry ← load span a i
        if before > entry then do
          let a ← swapAt span a (i - 1) i
          pure (.again (a, i + 1, true))
        else pure (.again (a, i + 1, exchange))
      else .ok (.leave (a, exchange))

/-- One pass of `while (end-1 > 0)`. No pass sets `exchange` back to false. -/
def bubblePass (fuel : Nat) (state : Contents Int × Int × Bool) :
    Outcome (Pass (Contents Int × Int × Bool) (Contents Int)) :=
  match state with
  | (a, last, exchange) =>
      if last - 1 > 0 then do
        let (a, exchange) ← repeatLoop (neighbourPass span last) fuel (a, 1, exchange)
        if exchange then pure (.again (a, last - 1, exchange))
        else pure (.leave a)
      else .ok (.leave a)

/-- `BubbleSort` -/
def bubbleSort (fuel : Nat) (a : Contents Int) (n : Nat) : Outcome (Contents Int) :=
  repeatLoop (bubblePass span fuel) fuel (a, toInt n, false)

/-! ## Counting -/

/-- One pass of the loop of `CountSort` that looks for `min` and `max`. -/
def boundsPass (a : Contents Int) (n : Nat) (state : Nat × Int × Int) :
    Outcome (Pass (Nat × Int × Int) (Int × Int)) :=
  match state with
  | (i, min, max) =>
      if i < n then do
        let entry ← load span a i
        let max := if entry > max then entry else max
        let min := if entry < min then entry else min
        pure (.again (i + 1, min, max))
      else .ok (.leave (min, max))

/-- One pass of the loop that counts, where `table` has the offsets of `tamp`. -/
def countPass (table : Span) (a : Contents Int) (n : Nat) (min : Int)
    (state : Contents Int × Nat) : Outcome (Pass (Contents Int × Nat) (Contents Int)) :=
  match state with
  | (tamp, i) =>
      if i < n then do
        let entry ← load span a i
        let place ← addInt entry (-min)
        let count ← load table tamp place
        let more ← addInt count 1
        let tamp ← store table tamp place more
        pure (.again (tamp, i + 1))
      else .ok (.leave tamp)

/-- The value `i + min`, a sum of `size_t`, as it is assigned to an `int`. -/
def refillValue (i : Nat) (min : Int) : Int := toInt (toSize (i + min))

/-- One pass of `while (tamp[i]--)`. -/
def refillPass (table : Span) (min : Int) (i : Nat) (state : Contents Int × Contents Int × Int) :
    Outcome (Pass (Contents Int × Contents Int × Int) (Contents Int × Contents Int × Int)) :=
  match state with
  | (a, tamp, index) => do
      let count ← load table tamp i
      let less ← addInt count (-1)
      let tamp ← store table tamp i less
      if count ≠ 0 then do
        let a ← store span a index (refillValue i min)
        let index ← addInt index 1
        pure (.again (a, tamp, index))
      else pure (.leave (a, tamp, index))

/-- One pass of the last `for` loop. -/
def valuePass (table : Span) (fuel : Nat) (range min : Int)
    (state : (Contents Int × Contents Int × Int) × Nat) :
    Outcome (Pass ((Contents Int × Contents Int × Int) × Nat) (Contents Int)) :=
  match state with
  | (filled, i) =>
      if i < toSize range then do
        let filled ← repeatLoop (refillPass span table min i) fuel filled
        pure (.again (filled, i + 1))
      else .ok (.leave filled.1)

/-- `CountSort` -/
def countSort (fuel : Nat) (a : Contents Int) (n : Nat) : Outcome (Contents Int) := do
  let first ← load span a 0
  let (min, max) ← repeatLoop (boundsPass span a n) fuel (0, first, first)
  let spread ← addInt max (-min)
  let range ← addInt spread 1
  let table : Span := ⟨0, range - 1⟩
  let tamp ← repeatLoop (countPass span table a n min) fuel (fun _ => 0, 0)
  repeatLoop (valuePass span table fuel range min) fuel ((a, tamp, 0), 0)

/-! ## Partitions -/

/-- `GetMiddleIndex` -/
def getMiddleIndex (a : Contents Int) (left right : Nat) : Outcome Nat := do
  let mid := toInt (toSize (left + toSize (right - left) / 2))
  let atMid ← load span a mid
  let atRight ← load span a right
  let atLeft ← load span a left
  if atMid ≤ atRight then
    if atMid ≥ atLeft then pure (toSize mid)
    else if atLeft ≤ atRight then pure left
    else pure right
  else
    if atRight ≥ atLeft then pure right
    -- here the source returns the element in place of its index
    else if atLeft ≥ atMid then pure (toSize atMid)
    else pure left

/-- One pass of a loop that moves an index up to `limit` while the entries pass a test. -/
def risePass (test : Int → Bool) (a : Contents Int) (limit index : Int) :
    Outcome (Pass Int Int) :=
  if index < limit then do
    let entry ← load span a index
    if test entry then pure (.again (index + 1)) else pure (.leave index)
  else .ok (.leave index)

/-- One pass of a loop that moves an index down to `limit` while the entries pass a test. -/
def fallPass (test : Int → Bool) (a : Contents Int) (limit index : Int) :
    Outcome (Pass Int Int) :=
  if limit < index then do
    let entry ← load span a index
    if test entry then pure (.again (index - 1)) else pure (.leave index)
  else .ok (.leave index)

/-- One pass of the loop of `PartSort1`. -/
def crossPass (fuel : Nat) (key : Int) (state : Contents Int × Int × Int) :
    Outcome (Pass (Contents Int × Int × Int) (Contents Int × Int)) :=
  match state with
  | (a, begin, last) =>
      if begin < last then do
        let begin ← repeatLoop (risePass span (· ≤ key) a last) fuel begin
        let last ← repeatLoop (fallPass span (· ≥ key) a begin) fuel last
        if begin < last then do
          let a ← swapAt span a begin last
          pure (.again (a, begin, last))
        else pure (.again (a, begin, last))
      else .ok (.leave (a, begin))

/-- `PartSort1` behind the call of `GetMiddleIndex`. -/
def partSort1From (fuel : Nat) (a : Contents Int) (left right mid : Nat) :
    Outcome (Contents Int × Nat) := do
  let a ← swapAt span a right (toInt mid)
  let key ← load span a right
  let (a, begin) ← repeatLoop (crossPass span fuel key) fuel (a, toInt left, toInt right)
  let a ← swapAt span a begin right
  pure (a, toSize begin)

/-- `PartSort1` -/
def partSort1 (fuel : Nat) (a : Contents Int) (left right : Nat) :
    Outcome (Contents Int × Nat) := do
  let mid ← getMiddleIndex span a left right
  partSort1From span fuel a left right mid

/-- One pass of the loop of `PartSort2`. -/
def holePass (fuel : Nat) (key : Int) (state : Contents Int × Nat × Nat) :
    Outcome (Pass (Contents Int × Nat × Nat) (Contents Int × Nat)) :=
  match state with
  | (a, left, right) =>
      if left < right then do
        let risen ← repeatLoop (risePass span (· < key) a right) fuel left
        let entry ← load span a risen
        let a ← store span a right entry
        let fallen ← repeatLoop (fallPass span (· > key) a risen) fuel right
        let entry ← load span a fallen
        let a ← store span a risen entry
        pure (.again (a, risen.toNat, fallen.toNat))
      else .ok (.leave (a, left))

/-- `PartSort2` behind the call of `GetMiddleIndex`. -/
def partSort2From (fuel : Nat) (a : Contents Int) (left right mid : Nat) :
    Outcome (Contents Int × Nat) := do
  let a ← swapAt span a (toInt mid) right
  let key ← load span a right
  let (a, left) ← repeatLoop (holePass span fuel key) fuel (a, left, right)
  let a ← store span a left key
  pure (a, left)

/-- `PartSort2` -/
def partSort2 (fuel : Nat) (a : Contents Int) (left right : Nat) :
    Outcome (Contents Int × Nat) := do
  let mid ← getMiddleIndex span a left right
  partSort2From span fuel a left right mid

/-- One pass of `while (a[cur] < key && ++prev != cur)`. -/
def trailPass (key cur : Int) (state : Contents Int × Int) :
    Outcome (Pass (Contents Int × Int) (Contents Int × Int)) :=
  match state with
  | (a, prev) => do
      let entry ← load span a cur
      if entry < key then do
        let prev ← addInt prev 1
        if prev ≠ cur then do
          let a ← swapAt span a prev cur
          pure (.again (a, prev))
        else pure (.leave (a, prev))
      else pure (.leave (a, prev))

/-- One pass of `while (cur < right)`. -/
def sweepPass (fuel : Nat) (key : Int) (right : Nat) (state : Contents Int × Int × Int) :
    Outcome (Pass (Contents Int × Int × Int) (Contents Int × Int)) :=
  match state with
  | (a, prev, cur) =>
      if toSize cur < right then do
        let (a, prev) ← repeatLoop (trailPass span key cur) fuel (a, prev)
        let cur ← addInt cur 1
        pure (.again (a, prev, cur))
      else .ok (.leave (a, prev))

/-- `PartSort3` behind the call of `GetMiddleIndex`. -/
def partSort3From (fuel : Nat) (a : Contents Int) (left right mid : Nat) :
    Outcome (Contents Int × Nat) := do
  let a ← swapAt span a (toInt mid) right
  let key ← load span a right
  let (a, prev) ← repeatLoop (sweepPass span fuel key right) fuel
    (a, toInt (toSize (left - 1)), toInt left)
  let prev ← addInt prev 1
  let a ← swapAt span a prev right
  pure (a, toSize prev)

/-- `PartSort3` -/
def partSort3 (fuel : Nat) (a : Contents Int) (left right : Nat) :
    Outcome (Contents Int × Nat) := do
  let mid ← getMiddleIndex span a left right
  partSort3From span fuel a left right mid

/-! ## Quicksort -/

/-- One pass of `while (!s.empty())`. The head of the list is the top of the stack. -/
def nonRPass (fuel : Nat) (state : Contents Int × List Int) :
    Outcome (Pass (Contents Int × List Int) (Contents Int)) :=
  match state with
  | (a, []) => .ok (.leave a)
  | (_, [_]) => .error .outOfRange
  | (a, begin :: last :: s) => do
      let (a, div) ← partSort3 span fuel a (toSize begin) (toSize last)
      let div := toInt div
      let s := if begin < div - 1 then begin :: (div - 1) :: s else s
      let next ← addInt div 1
      let s := if next < last then next :: last :: s else s
      pure (.again (a, s))

/-- `QuickSortNonR` -/
def quickSortNonR (fuel : Nat) (a : Contents Int) (left right : Nat) : Outcome (Contents Int) :=
  repeatLoop (nonRPass span fuel) fuel
    (a, if left < right then [toInt left, toInt right] else [])

/-- `QuickSort`. The fuel also bounds the depth of the recursion. -/
def quickSort : (fuel : Nat) → Contents Int → (left right : Nat) → Outcome (Contents Int)
  | 0, _, _, _ => .error .outOfFuel
  | fuel + 1, a, left, right =>
      if toSize (right - left) < 16 then
        insertSort span fuel a (toSize (toSize (right - left) + 1))
      else do
        let (a, div) ← partSort1 span fuel a left right
        let div := toInt div
        let a ← quickSort fuel a left (toSize (div - 1))
        let next ← addInt div 1
        quickSort fuel a (toSize next) right

end DataStructAlgorithm.Algorithm.Sort
