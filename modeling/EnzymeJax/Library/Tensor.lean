import Mathlib.Data.List.Nodup
import Mathlib.Data.List.GetD
import Mathlib.Tactic

/-!
# Tensors

A tensor is a shape and a function on index lists; only the indices within the shape matter. An
operation whose operands have to fit together returns an option, `none` where it is ill formed.
-/

structure Tensor (α : Type*) where
  shape : List Nat
  get : List Nat → α

namespace Tensor

variable {α β γ : Type*}

/-- The coordinate of an index, or the extent of a shape, along dimension `d`. -/
def coord (idx : List Nat) (d : Nat) : Nat := idx.getD d 0

def splat (shape : List Nat) (a : α) : Tensor α := ⟨shape, fun _ => a⟩

def iota (n : Nat) : Tensor Int := ⟨[n], fun idx => (coord idx 0 : Int)⟩

def map (f : α → β) (t : Tensor α) : Tensor β := ⟨t.shape, fun idx => f (t.get idx)⟩

def zipWith (f : α → β → γ) (a : Tensor α) (b : Tensor β) : Option (Tensor γ) :=
  if a.shape = b.shape then some ⟨a.shape, fun idx => f (a.get idx) (b.get idx)⟩ else none

/-- The dimensions of a `broadcast_in_dim` are distinct dimensions of the result, and every extent
that is broadcast along one is 1 or already that of the result. -/
def BroadcastOk (operand dims shape : List Nat) : Prop :=
  dims.length = operand.length ∧ dims.Nodup ∧ (∀ d ∈ dims, d < shape.length) ∧
    ∀ p ∈ List.zip operand dims, p.1 = 1 ∨ p.1 = coord shape p.2

instance (operand dims shape : List Nat) : Decidable (BroadcastOk operand dims shape) :=
  inferInstanceAs (Decidable (_ ∧ _ ∧ _ ∧ _))

def broadcastInDim (t : Tensor α) (dims shape : List Nat) : Option (Tensor α) :=
  if BroadcastOk t.shape dims shape then
    some ⟨shape, fun idx =>
      t.get (List.zipWith (fun n d => if n = 1 then 0 else coord idx d) t.shape dims)⟩
  else none

variable {d : Nat} {dims shape : List Nat}

theorem coord_eq_getElem {l : List Nat} (hd : d < l.length) : coord l d = l[d] :=
  List.getD_eq_getElem _ _ hd

theorem broadcastOk_iff {operand : List Nat} : BroadcastOk operand dims shape ↔
    dims.length = operand.length ∧ dims.Nodup ∧ ∀ k < dims.length, coord dims k < shape.length ∧
      (coord operand k = 1 ∨ coord operand k = coord shape (coord dims k)) := by
  refine and_congr_right fun hlen => and_congr_right fun _ => ?_
  constructor
  · rintro ⟨hdims, hextents⟩ k hk
    have hk' : k < operand.length := hlen ▸ hk
    have hzip : k < (List.zip operand dims).length := by simpa [hlen] using hk'
    have hextent := hextents _ (List.getElem_mem hzip)
    rw [List.getElem_zip] at hextent
    rw [coord_eq_getElem hk, coord_eq_getElem hk']
    exact ⟨hdims _ (List.getElem_mem hk), hextent⟩
  · intro h
    refine ⟨fun d hd => ?_, fun p hp => ?_⟩
    · obtain ⟨k, hk, rfl⟩ := List.getElem_of_mem hd
      rw [← coord_eq_getElem hk]
      exact (h k hk).1
    · obtain ⟨k, hk, rfl⟩ := List.getElem_of_mem hp
      have hk' : k < operand.length ∧ k < dims.length := by simpa using hk
      rw [List.getElem_zip]
      dsimp only
      rw [← coord_eq_getElem hk'.1, ← coord_eq_getElem hk'.2]
      exact (h k hk'.2).2

theorem of_broadcastInDim {x t : Tensor α} (h : broadcastInDim x dims shape = some t) :
    BroadcastOk x.shape dims shape ∧ t.shape = shape := by
  rw [broadcastInDim] at h
  split at h
  · rename_i hok
    exact ⟨hok, congrArg Tensor.shape (Option.some.inj h).symm⟩
  · cases h

@[simp] theorem coord_map (f : α → Nat) (l : List α) (hd : d < l.length) : coord (l.map f) d = f l[d] := by
  simp [coord, hd]

theorem coord_map_range (f : Nat → Nat) {n : Nat} (hd : d < n) : coord ((List.range n).map f) d = f d := by
  rw [coord_map _ _ (by rwa [List.length_range]), List.getElem_range]

/-- The list of the values, if all are there. -/
def allSome {α : Type*} : List (Option α) → Option (List α)
  | [] => some []
  | none :: _ => none
  | some a :: l => (allSome l).map (a :: ·)

theorem allSome_map_some (l : List α) : allSome (l.map some) = some l := by
  induction l with
  | nil => rfl
  | cons a l ih => rw [List.map_cons, allSome, ih, Option.map_some]

end Tensor
