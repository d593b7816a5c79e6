import SystemProgramming.Foundation.Ownership
import SystemProgramming.Foundation.Run

/-!
# The vector of `vector.c`

A pointer that a vector stores is null or names an object, and the objects are numbered in the
order in which the callbacks of the client make them. A log keeps which object was made, read
by the copy constructor, or destroyed. Elements that the client passes are its own objects, so
of them only the value counts. A `size_t` is below `2 ^ 64`. A failed assertion, an access
outside the array or to a word that was never written, and a loop that never ends are `none`.

## Main definitions

* `Callbacks`: what the client's constructors return
* `State`: the fields of the vector, the objects and the log
* `getNewCapacity`, `reserve`, `resize`, `set`, `pushBack`, `popBack`, `erase`, `clear`,
  `destroy`, `insert`: the functions of the source
* `Op`, `exec`: a call of one of them
-/

namespace SystemProgramming.Vector

/-- The constructors of the client: the value of the object they return, or null. A copy of a
copy, and a copy of a default object, read as what they were copied from. -/
structure Callbacks (V : Type) where
  copyConstructor : Option V → Option V
  defaultConstructor : Option V
  copy_copy : ∀ x, copyConstructor (copyConstructor x) = copyConstructor x
  copy_default : copyConstructor defaultConstructor = defaultConstructor

/-- A pointer to an object that a callback made. -/
abbrev Pointer := Option Nat

/-- `INITIAL_CAPACITY`. -/
def initialCapacity : Nat := 8

/-- `GROWTH_FACTOR`. -/
def growthFactor : Nat := 2

/-- The size of a pointer in bytes. -/
def pointerSize : Nat := 8

/-- A vector, the values of the objects made so far, and what was done with them. A word of
the array is `none` until it is written. -/
structure State (V : Type) where
  array : List (Option Pointer)
  size : Nat
  capacity : Nat
  objects : List V
  log : List (Use Nat)

/-- `malloc` and `realloc` of an array: the words that are kept, then words never written. -/
def realloc (array : List (Option Pointer)) (bytes : Nat) : List (Option Pointer) :=
  array.take (bytes / pointerSize) ++
    List.replicate (bytes / pointerSize - array.length) none

/-- The loop of `get_new_capacity`. Doubled 64 times, 1 is 0 and stays 0. -/
def growCapacity (target : Nat) : Nat → Nat → Option Nat
  | 0, _ => none
  | fuel + 1, newCapacity =>
    if newCapacity < target then growCapacity target fuel (newCapacity * growthFactor % 2 ^ 64)
    else some newCapacity

/-- `get_new_capacity`. -/
def getNewCapacity (target : Nat) : Option Nat := growCapacity target 65 1

/-- `vector_create`. -/
def create (V : Type) : State V where
  array := realloc [] (pointerSize * initialCapacity)
  size := 0
  capacity := initialCapacity
  objects := []
  log := []

namespace State

variable {V : Type}

/-- What an object reads as. -/
def read (s : State V) (p : Pointer) : Option V := p.bind fun o => s.objects[o]?

/-- `this->array[i]`. -/
def get (s : State V) (i : Nat) : Option Pointer := s.array[i]?.join

/-- `this->array[i] = p`. -/
def put (s : State V) (i : Nat) (p : Pointer) : Option (State V) :=
  if i < s.array.length then some { s with array := s.array.set i (some p) } else none

/-- A constructor makes an object, or returns null. -/
def construct (s : State V) : Option V → Pointer × State V
  | none => (none, s)
  | some v => (some s.objects.length,
      { s with
        objects := s.objects ++ [v]
        log := s.log ++ [.make s.objects.length] })

/-- `this->destructor(p)`. -/
def destructor (s : State V) : Pointer → State V
  | none => s
  | some o => { s with log := s.log ++ [.drop o] }

variable (cb : Callbacks V)

/-- `this->copy_constructor(element)` for an element of the client. -/
def copyElement (s : State V) (element : Option V) : Pointer × State V :=
  s.construct (cb.copyConstructor element)

/-- `this->copy_constructor(p)` for a stored pointer. -/
def copyConstructor (s : State V) : Pointer → Pointer × State V
  | none => s.construct (cb.copyConstructor none)
  | some o =>
    construct { s with log := s.log ++ [.use o] } (cb.copyConstructor (s.read (some o)))

/-- `this->default_constructor()`. -/
def defaultConstructor (s : State V) : Pointer × State V := s.construct cb.defaultConstructor

/-- `for (...) this->destructor(this->array[i])`, from `i` on, a number of times. -/
def destroyFrom (s : State V) (i : Nat) : Nat → Option (State V)
  | 0 => some s
  | k + 1 => do
    let p ← s.get i
    (s.destructor p).destroyFrom (i + 1) k

/-- `for (...) this->array[i] = this->default_constructor()`, from `i` on. -/
def fillFrom (s : State V) (i : Nat) : Nat → Option (State V)
  | 0 => some s
  | k + 1 => do
    let (p, s) := s.defaultConstructor cb
    let s ← s.put i p
    s.fillFrom (i + 1) k

/-- `vector_reserve`. -/
def reserve (s : State V) (n : Nat) : Option (State V) :=
  if s.capacity < n then do
    let capacity ← getNewCapacity n
    some { s with
      capacity := capacity
      array := realloc s.array (capacity * pointerSize % 2 ^ 64) }
  else some s

/-- `vector_resize`. -/
def resize (s : State V) (n : Nat) : Option (State V) :=
  if n < s.size then do
    let s' ← s.destroyFrom n (s.size - n)
    some { s' with size := n }
  else if n ≤ s.capacity then do
    let s' ← s.fillFrom cb s.size (n - s.size)
    some { s' with size := n }
  else do
    let s ← s.reserve n
    let s' ← s.fillFrom cb s.size (n - s.size)
    some { s' with size := n }

/-- `vector_set`. -/
def set (s : State V) (position : Nat) (element : Option V) : Option (State V) :=
  if position < s.size then do
    let old ← s.get position
    let (p, s) := (s.destructor old).copyElement cb element
    s.put position p
  else none

/-- `vector_push_back`. -/
def pushBack (s : State V) (element : Option V) : Option (State V) := do
  let s := { s with size := (s.size + 1) % 2 ^ 64 }
  let s ← if s.capacity < s.size then s.reserve s.size else some s
  let (p, s) := s.copyElement cb element
  s.put (s.size - 1) p

/-- `vector_pop_back`. -/
def popBack (s : State V) : Option (State V) :=
  if s.size ≠ 0 then do
    let p ← s.get (s.size - 1)
    let s := s.destructor p
    some { s with size := s.size - 1 }
  else none

/-- The loop of `vector_erase`: the element behind moves up by a copy, a number of times. -/
def eraseFrom (s : State V) (i : Nat) : Nat → Option (State V)
  | 0 => some s
  | k + 1 => do
    let p ← s.get i
    let s := s.destructor p
    let next ← s.get (i + 1)
    let (q, s) := s.copyConstructor cb next
    let s ← s.put i q
    s.eraseFrom (i + 1) k

/-- `vector_erase`. -/
def erase (s : State V) (position : Nat) : Option (State V) :=
  if position < s.size then do
    let oldSize := s.size
    let s := { s with size := s.size - 1 }
    let s ← s.eraseFrom cb position (oldSize - 1 - position)
    let p ← s.get s.size
    some (s.destructor p)
  else none

/-- The loop of `vector_clear`. -/
def clearFrom (s : State V) (i : Nat) : Nat → Option (State V)
  | 0 => some s
  | k + 1 => do
    let p ← s.get i
    let s ← (s.destructor p).put i none
    s.clearFrom (i + 1) k

/-- `vector_clear`. -/
def clear (s : State V) : Option (State V) := do
  let s ← s.clearFrom 0 s.size
  some { s with size := 0 }

/-- The loop of `vector_destroy`, which leaves null pointers alone. -/
def destroyLoop (s : State V) (i : Nat) : Nat → Option (State V)
  | 0 => some s
  | k + 1 => do
    let p ← s.get i
    let s ← if p ≠ none then (s.destructor p).put i none else some s
    s.destroyLoop (i + 1) k

/-- `vector_destroy`. -/
def destroy (s : State V) : Option (State V) := do
  let s ← s.destroyLoop 0 s.size
  some { s with array := [] }

/-- The loop of `vector_insert`, for at most `fuel` turns: an element moves down by a copy. The
index is unsigned, and what comes after zero is the largest `size_t`. -/
def insertLoop (s : State V) (position : Nat) : Nat → Nat → Option (State V)
  | 0, _ => none
  | fuel + 1, i =>
    if i ≥ position then do
      let p ← s.get i
      let (q, s) := s.copyConstructor cb p
      let s ← s.put ((i + 1) % 2 ^ 64) q
      let p ← s.get i
      (s.destructor p).insertLoop position fuel ((i + (2 ^ 64 - 1)) % 2 ^ 64)
    else some s

/-- `vector_insert`. -/
def insert (s : State V) (position : Nat) (element : Option V) (fuel : Nat) :
    Option (State V) :=
  if position ≤ s.size then do
    let oldSize := s.size
    let s := { s with size := (s.size + 1) % 2 ^ 64 }
    let s ← if s.capacity < s.size then s.reserve s.size else some s
    let s ← s.insertLoop cb position fuel ((oldSize + (2 ^ 64 - 1)) % 2 ^ 64)
    let (p, s) := s.copyElement cb element
    s.put position p
  else none

end State

/-- A call of the client. -/
inductive Op (V : Type) where
  | pushBack (element : Option V)
  | popBack
  | set (position : Nat) (element : Option V)
  | erase (position : Nat)
  | resize (n : Nat)
  | reserve (n : Nat)
  | clear

variable {V : Type}

def exec (cb : Callbacks V) (s : State V) : Op V → Option (State V)
  | .pushBack element => s.pushBack cb element
  | .popBack => s.popBack
  | .set position element => s.set cb position element
  | .erase position => s.erase cb position
  | .resize n => s.resize cb n
  | .reserve n => s.reserve n
  | .clear => s.clear

/-- Objects that hold one value, as the callbacks for numbers and strings make them: a copy of
null is null. -/
def deepCallbacks (zero : V) : Callbacks V where
  copyConstructor := id
  defaultConstructor := some zero
  copy_copy := fun _ => rfl
  copy_default := rfl

example : ((run (exec (deepCallbacks 0)) (create Nat)
    [.pushBack (some 1), .pushBack (some 2), .pushBack none, .set 1 (some 5), .erase 0]).map
      fun s => (s.size, s.capacity, (List.range s.size).map fun i => (s.get i).map s.read)) =
    some (2, 8, [some (some 5), some none]) := by decide

end SystemProgramming.Vector
