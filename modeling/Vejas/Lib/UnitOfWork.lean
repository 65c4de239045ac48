import Mathlib.Data.List.Basic

/-! A queue with one unit of work over it. What is got is held and what is put is staged until a
commit makes both permanent or a backout undoes both. -/

structure UnitOfWork (α : Type) where
  queue : List α
  held : List α
  staged : List α
  removed : List α
  delivered : List α

namespace UnitOfWork
variable {α : Type}

def Empty (u : UnitOfWork α) : Prop := u.held = [] ∧ u.staged = []

def fresh : UnitOfWork α := ⟨[], [], [], [], []⟩

def arrive (u : UnitOfWork α) (a : α) : UnitOfWork α := { u with queue := u.queue ++ [a] }

def get (u : UnitOfWork α) : Option (α × UnitOfWork α) :=
  match u.queue with
  | [] => none
  | a :: rest => some (a, { u with queue := rest, held := u.held ++ [a] })

def put (u : UnitOfWork α) (a : α) : UnitOfWork α := { u with staged := u.staged ++ [a] }

def commit (u : UnitOfWork α) : UnitOfWork α :=
  { queue := u.queue
    held := []
    staged := []
    removed := u.removed ++ u.held
    delivered := u.delivered ++ u.staged }

def backout (u : UnitOfWork α) : UnitOfWork α :=
  { u with queue := u.held ++ u.queue, held := [], staged := [] }

def stock (u : UnitOfWork α) : List α := u.removed ++ u.held ++ u.queue

theorem stock_arrive (u : UnitOfWork α) (a : α) : (u.arrive a).stock = u.stock ++ [a] := by
  simp [stock, arrive]

theorem stock_get {u u' : UnitOfWork α} {a : α} (h : u.get = some (a, u')) : u'.stock = u.stock := by
  unfold get at h
  split at h
  · cases h
  next hq =>
    cases h
    simp [stock, hq]

theorem get_held {u u' : UnitOfWork α} {a : α} (h : u.get = some (a, u')) :
    u'.held = u.held ++ [a] ∧ u'.staged = u.staged ∧ u'.removed = u.removed := by
  unfold get at h
  split at h
  · cases h
  · cases h
    exact ⟨rfl, rfl, rfl⟩

theorem stock_commit (u : UnitOfWork α) : u.commit.stock = u.stock := by simp [stock, commit]

theorem stock_backout (u : UnitOfWork α) : u.backout.stock = u.stock := by simp [stock, backout]

end UnitOfWork
