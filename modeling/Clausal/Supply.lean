import Clausal.Atom

/-!
# Supplies of atoms

A supply hands out atoms in the order 1, 2, 3, …. Its mark is the last atom handed out. A reset
begins a new generation, in which the atoms are handed out from 1 again; an atom of an earlier
generation is then told apart from one of this generation only if it lies above the mark.
-/

namespace Clausal

structure Supply where
  /-- The index of the last atom handed out, and 0 if there is none. -/
  mark : Nat
  /-- The number of resets so far. -/
  generation : Nat
  mark_le : mark ≤ atomMax

namespace Supply

/-- A supply that has handed out nothing. -/
def empty : Supply := ⟨0, 0, by decide⟩

/-- Hands out the next atom, while there is one. -/
def fresh (s : Supply) : Except SupplyError (Atom × Supply) :=
  if h : s.mark < atomMax then
    .ok (⟨s.mark + 1, by omega⟩, ⟨s.mark + 1, s.generation, h⟩)
  else .error .atomsExhausted

/-- Hands out the next atom, and the greatest atom over and over once there is none. -/
def freshOrGreatest (s : Supply) : Atom × Supply :=
  match s.fresh with
  | .ok r => r
  | .error _ => (Atom.greatest, s)

/-- Hands out a number of atoms. If they run out, those handed out before stay so. -/
def freshAtoms : Nat → Supply → Except SupplyError (List Atom) × Supply
  | 0, s => (.ok [], s)
  | n + 1, s =>
    match s.fresh with
    | .error e => (.error e, s)
    | .ok (a, s) =>
      match freshAtoms n s with
      | (.error e, s) => (.error e, s)
      | (.ok as, s) => (.ok (a :: as), s)

/-- Whether an atom may have been handed out in this generation. -/
def knows (s : Supply) (a : Atom) : Bool := decide (a.index ≤ s.mark)

/-- The atom of an index, if it may have been handed out in this generation. -/
def atom (s : Supply) (index : Nat) : Except Error Atom :=
  match Atom.ofIndex index with
  | .error e => .error (.formula e)
  | .ok a => if s.knows a then .ok a else .error (.supply (.unknownAtom index))

/-- Begins a new generation. -/
def reset (s : Supply) : Supply := ⟨0, s.generation + 1, by decide⟩

end Supply

end Clausal
