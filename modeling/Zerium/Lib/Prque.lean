import Zerium.Lib.Heap

/-! # A priority queue over `container/heap`

`prque.Prque` keeps `item`s of a value and a `float32` priority in a stack that `container/heap`
runs, with `Less(i, j)` when item `i` has the greater priority, so that `Pop` returns an item
of greatest priority. The stack keeps its slice in blocks of 4096 entries, which only spreads it
over several allocations; here it is a list. The priorities are those of a linear order `β`,
and the heap's key is the dual order. `float32` of a number, the priority its callers give, is
`roundFloat32`: the number rounded to the 24 significant bits of a `float32`, ties to even.
-/

namespace Prque

set_option autoImplicit false

def rne (n d : Nat) : Nat :=
  if d < 2 * (n % d) ∨ (2 * (n % d) = d ∧ n / d % 2 = 1) then n / d + 1 else n / d

def roundFloat32 (n : Nat) : Nat :=
  if n < 2 ^ 24 then n else rne n (2 ^ (n.log2 + 1 - 24)) * 2 ^ (n.log2 + 1 - 24)

example : roundFloat32 (2 ^ 24 + 1) = 2 ^ 24 ∧ roundFloat32 (2 ^ 24 + 3) = 2 ^ 24 + 4 := by decide

/-- An `item` of the queue. -/
structure Item (α β : Type) where
  value : α
  priority : β

variable {α β : Type} [LinearOrder β]

def key (it : Item α β) : βᵒᵈ := OrderDual.toDual it.priority

/-- `Push(data, priority)`. -/
def push (q : List (Item α β)) (data : α) (priority : β) : List (Item α β) :=
  GoHeap.push key q ⟨data, priority⟩

/-- `PopItem()`: the value of an item of greatest priority and the queue after; `none` where
`heap.Pop` panics on an empty queue. -/
def popItem (q : List (Item α β)) : Option (α × List (Item α β)) :=
  (GoHeap.pop key q).map fun r => (r.1.value, r.2)

/-- `Empty()`. -/
def Empty (q : List (Item α β)) : Bool := q.length == 0

/-- The queue is a heap for `Less`. -/
def Valid (q : List (Item α β)) : Prop := GoHeap.IsHeap key q q.length

theorem push_perm (q : List (Item α β)) (data : α) (priority : β) :
    (push q data priority).Perm (⟨data, priority⟩ :: q) :=
  GoHeap.push_perm q _

end Prque
