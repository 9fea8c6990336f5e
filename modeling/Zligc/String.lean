import Zligc.Zig

/-!
# The functions of string.zig

A pointer is an address. Every subscript `p[i]` is one `load` or `store`, in the
order in which the source evaluates them, and `and` evaluates its right side only
when the left one holds.
-/
namespace ZligcString

open Effect CellMemory Zig

variable {σ : Type} [HasMem σ]

def copyForward (dest src count : Nat) : Run σ Nat := do
  while_ 0 fun i => do
    if i < count then
      store dest i (← load src i)
      return .next (← add i 1)
    else
      return .done ()
  return dest

def memcpy (dest src count : Nat) : Run σ Nat := copyForward dest src count

def copyBackward (dest src count : Nat) : Run σ Nat := do
  while_ 0 fun ri => do
    if ri < count then
      let i ← sub (← sub count ri) 1
      store dest i (← load src i)
      return .next (← add ri 1)
    else
      return .done ()
  return dest

/-- memmove, with the function it leaves disjoint ranges to as an argument. -/
def memmoveWith (memcpy : Nat → Nat → Nat → Run σ Nat) (dest src count : Nat) : Run σ Nat := do
  if dest = src then
    return dest
  if ← (return decide ((← add dest count) ≤ src)) <||>
      (return decide ((← add src count) ≤ dest)) then
    memcpy dest src count
  else if dest < src then
    copyForward dest src count
  else
    copyBackward dest src count

def memmove (dest src count : Nat) : Run σ Nat := memmoveWith memcpy dest src count

def memset (dest : Nat) (ch : Int32) (count : Nat) : Run σ Nat := do
  while_ 0 fun i => do
    if i < count then
      store dest i (← castU8 ch)
      return .next (← add i 1)
    else
      return .done ()
  return dest

def memcmp (lhs rhs count : Nat) : Run σ Int32 :=
  while_ 0 fun i => do
    if i < count then
      if (← load lhs i) > (← load rhs i) then
        return .done 1
      else if (← load lhs i) < (← load rhs i) then
        return .done (-1)
      return .next (← add i 1)
    else
      return .done 0

def memchr (ptr : Nat) (ch : Int32) (count : Nat) : Run σ (Option Nat) :=
  while_ 0 fun i => do
    if i < count then
      if (← load ptr i) == (← castU8 ch) then
        return .done (some (ptr + i))
      return .next (← add i 1)
    else
      return .done none

def strlen (str : Nat) : Run σ Nat :=
  while_ 0 fun i => do
    if (← load str i) != 0 then
      return .next (← add i 1)
    else
      return .done i

def strcpy (dest src : Nat) : Run σ Nat := do
  let i ← while_ 0 fun i => do
    if (← load src i) != 0 then
      store dest i (← load src i)
      return .next (← add i 1)
    else
      return .done i
  store dest i 0
  return dest

def strncpy (dest src count : Nat) : Run σ Nat := do
  let i ← while_ 0 fun i => do
    if ← (return (← load src i) != 0) <&&> (return decide (i < count)) then
      store dest i (← load src i)
      return .next (← add i 1)
    else
      return .done i
  while_ i fun i => do
    if i < count then
      store dest i 0
      return .next (← add i 1)
    else
      return .done ()
  return dest

def strcat (dest src : Nat) : Run σ Nat := do
  let i ← while_ 0 fun i => do
    if (← load dest i) != 0 then
      return .next (← add i 1)
    else
      return .done i
  let j ← while_ 0 fun j => do
    if (← load src j) != 0 then
      store dest (← add i j) (← load src j)
      return .next (← add j 1)
    else
      return .done j
  store dest (← add i j) 0
  return dest

def strncat (dest src count : Nat) : Run σ Nat := do
  let i ← while_ 0 fun i => do
    if (← load dest i) != 0 then
      return .next (← add i 1)
    else
      return .done i
  let j ← while_ 0 fun j => do
    if ← (return (← load src j) != 0) <&&> (return decide (j < count)) then
      store dest (← add i j) (← load src j)
      return .next (← add j 1)
    else
      return .done j
  store dest (← add i j) 0
  return dest

def strcmp (lhs rhs : Nat) : Run σ Int32 := do
  let exit : Exit Int32 Nat ← while_ 0 fun i => do
    if ← (return (← load lhs i) != 0) <&&> (return (← load rhs i) != 0) then
      if (← load lhs i) > (← load rhs i) then
        return .done (.returned 1)
      else if (← load lhs i) < (← load rhs i) then
        return .done (.returned (-1))
      return .next (← add i 1)
    else
      return .done (.fell i)
  match exit with
  | .returned v => return v
  | .fell i =>
    if ← (return (← load lhs i) == 0) <&&> (return (← load rhs i) == 0) then
      return 0
    else if (← load rhs i) == 0 then
      return 1
    else
      return -1

def strncmp (lhs rhs count : Nat) : Run σ Int32 := do
  let exit : Exit Int32 Nat ← while_ 0 fun i => do
    if ← (return (← load lhs i) != 0) <&&> (return (← load rhs i) != 0) <&&>
        (return decide (i < count)) then
      if (← load lhs i) > (← load rhs i) then
        return .done (.returned 1)
      else if (← load lhs i) < (← load rhs i) then
        return .done (.returned (-1))
      return .next (← add i 1)
    else
      -- the `else` of the loop: it runs whenever the condition fails, so nothing falls through
      return .done (.returned 0)
  match exit with
  | .returned v => return v
  | .fell i =>
    if ← (return (← load lhs i) == 0) <&&> (return (← load rhs i) == 0) then
      return 0
    else if (← load rhs i) == 0 then
      return 1
    else
      return -1

def strchr (str : Nat) (ch : Int32) : Run σ (Option Nat) := do
  let exit : Exit (Option Nat) Nat ← while_ 0 fun i => do
    if (← load str i) != 0 then
      if (← load str i) == (← castU8 ch) then
        return .done (.returned (some (str + i)))
      return .next (← add i 1)
    else
      return .done (.fell i)
  match exit with
  | .returned v => return v
  | .fell i =>
    if ch = 0 then
      return some (str + i)
    return none

/-- The inner loop of strstr: it breaks at the first byte that differs, and its `else` returns. -/
def strstrMatch (haystack needle needle_len i : Nat) : Run σ (Exit (Option Nat) Unit) :=
  while_ 0 fun j => do
    if j < needle_len then
      if (← load haystack (← add i j)) != (← load needle j) then
        return .done (.fell ())
      return .next (← add j 1)
    else
      return .done (.returned (some (haystack + i)))

def strstr (haystack needle : Nat) : Run σ (Option Nat) := do
  let haystack_len ← strlen haystack
  let needle_len ← strlen needle
  if needle_len > haystack_len then
    return none
  while_ 0 fun i => do
    if i < (← add (← sub haystack_len needle_len) 1) then
      match ← strstrMatch haystack needle needle_len i with
      | .returned v => return .done v
      | .fell () => return .next (← add i 1)
    else
      return .done none

/-- The loop of strpbrk, strspn and strcspn: it leaves at the first byte of `dest` for which strchr
finds something in the set, or finds nothing there if `hit` is false. -/
def scanSet {α : Type} (dest set : Nat) (hit : Bool) (left ended : Nat → α) : Run σ α :=
  while_ 0 fun i => do
    if (← load dest i) != 0 then
      if (← strchr set (widen (← load dest i))).isSome == hit then
        return .done (left i)
      return .next (← add i 1)
    else
      return .done (ended i)

def strpbrk (dest breakset : Nat) : Run σ (Option Nat) :=
  scanSet dest breakset true (fun i => some (dest + i)) (fun _ => none)

def strspn (dest accept : Nat) : Run σ Nat := scanSet dest accept false (fun i => i) (fun i => i)

def strcspn (dest reject : Nat) : Run σ Nat := scanSet dest reject true (fun i => i) (fun i => i)

def strcoll (lhs rhs : Nat) : Run σ Int32 := strcmp lhs rhs

end ZligcString
