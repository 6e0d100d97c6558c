import Mathlib.Data.List.Basic

/-!
# A list with a position in it

A doubly linked list together with one iterator into it. `before` holds the
elements in front of the iterator, nearest first; the head of `after` is the
element pointed at, and an empty `after` is the past-the-end position. All
operations are constant-time moves between the two sides, as on the linked list.
-/

namespace DpiLibrary

/-- An iterator into a linked list, with the list. -/
structure Cursor (α : Type*) where
  before : List α
  after : List α
  deriving DecidableEq, Repr

namespace Cursor

variable {α : Type*}

/-- The list itself, the position forgotten. -/
def toList (c : Cursor α) : List α := c.before.reverse ++ c.after

/-- The iterator at the first element. -/
def start (l : List α) : Cursor α := ⟨[], l⟩

def atBegin (c : Cursor α) : Bool := c.before.isEmpty

def atEnd (c : Cursor α) : Bool := c.after.isEmpty

/-- The element pointed at. -/
def get? (c : Cursor α) : Option α := c.after.head?

/-- One element forward; past the end the iterator stays. -/
def next (c : Cursor α) : Cursor α :=
  match c.after with
  | [] => c
  | a :: as => ⟨a :: c.before, as⟩

/-- One element back; at the first element the iterator stays. -/
def prev (c : Cursor α) : Cursor α :=
  match c.before with
  | [] => c
  | b :: bs => ⟨bs, b :: c.after⟩

/-- Insert in front of the position; the iterator keeps pointing at its element. -/
def insert (c : Cursor α) (a : α) : Cursor α := ⟨a :: c.before, c.after⟩

/-- Remove the element pointed at; the iterator moves to the one after it. -/
def erase (c : Cursor α) : Cursor α := ⟨c.before, c.after.tail⟩

/-- Change the element pointed at in place. -/
def modify (c : Cursor α) (f : α → α) : Cursor α :=
  match c.after with
  | [] => c
  | a :: as => ⟨c.before, f a :: as⟩

@[simp] theorem toList_mk (bs as : List α) : (mk bs as).toList = bs.reverse ++ as := rfl

@[simp] theorem toList_start (l : List α) : (start l).toList = l := rfl

@[simp] theorem next_cons (bs as : List α) (a : α) : (mk bs (a :: as)).next = ⟨a :: bs, as⟩ := rfl

@[simp] theorem prev_cons (bs as : List α) (b : α) : (mk (b :: bs) as).prev = ⟨bs, b :: as⟩ := rfl

@[simp] theorem insert_mk (bs as : List α) (a : α) : (mk bs as).insert a = ⟨a :: bs, as⟩ := rfl

@[simp] theorem erase_cons (bs as : List α) (a : α) : (mk bs (a :: as)).erase = ⟨bs, as⟩ := rfl

@[simp] theorem modify_cons (bs as : List α) (a : α) (f : α → α) :
    (mk bs (a :: as)).modify f = ⟨bs, f a :: as⟩ := rfl

@[simp] theorem get?_cons (bs as : List α) (a : α) : (mk bs (a :: as)).get? = some a := rfl

@[simp] theorem get?_nil (bs : List α) : (mk bs []).get? = none := rfl

@[simp] theorem atBegin_nil (as : List α) : (mk [] as).atBegin = true := rfl

@[simp] theorem atBegin_cons (b : α) (bs as : List α) : (mk (b :: bs) as).atBegin = false := rfl

theorem mem_toList_of_get? {c : Cursor α} {a : α} (h : c.get? = some a) : a ∈ c.toList := by
  obtain ⟨bs, as⟩ := c
  cases as with
  | nil => cases h
  | cons a' as =>
    cases h
    simp

/-- Moving never changes the list. -/
theorem toList_next (c : Cursor α) : c.next.toList = c.toList := by
  obtain ⟨bs, as⟩ := c
  cases as <;> simp [next]

end Cursor
end DpiLibrary
