import EnzymeJax.Library.Reads

/-!
# Where the elements along a dimension come from

Where updates of a tensor differ in one dimension only, every element that they write comes from a position of the
operand along it, or is padding. Two such results are the same for all operands if and only if the positions are,
provided that there are any elements in the other dimensions.
-/

namespace Tensor

open List Function

variable {α : Type*}

/-- The coordinates of the region that starts at `s` and has extents `t`, but for dimension `d`. -/
def InBox (d rank : Nat) (s t c : Nat → Nat) : Prop := ∀ e < rank, e ≠ d → s e ≤ c e ∧ c e < s e + t e

/-- The element at the position along dimension `d`, if there is one, or else the padding value. -/
def fromLine (d : Nat) (v : α) (x : Tensor α) (c : Nat → Nat) : Option Nat → α
  | some k => x.read (Function.update c d k)
  | none => v

/-- In the region, the elements come from the positions `φ` along dimension `d`. -/
structure Sourced (d : Nat) (s t : Nat → Nat) (v : α) (φ : Nat → Option Nat) (x z : Tensor α) : Prop where
  shape_eq : z.shape = x.shape
  read_in : ∀ c, Within x.shape c → InBox d x.shape.length s t c → z.read c = fromLine d v x c (φ (c d))
  read_out : ∀ c, Within x.shape c → ¬InBox d x.shape.length s t c → z.read c = x.read c

/-- A tensor of the size of the region, and `n` along dimension `d`, with elements from the positions `σ`. -/
structure Drawn (d : Nat) (s t : Nat → Nat) (v : α) (σ : Nat → Option Nat) (n : Nat) (x u : Tensor α) : Prop where
  rank_eq : u.shape.length = x.shape.length
  coord_eq : ∀ e < x.shape.length, coord u.shape e = if e = d then n else t e
  read_eq : ∀ c, Within u.shape c → u.read c = fromLine d v x (fun e => s e + c e) (σ (c d))

/-- The positions `σ` from `l` on, of which there are `m`, and those of `φ` elsewhere. -/
def spliced (l m : Nat) (σ φ : Nat → Option Nat) (k : Nat) : Option Nat :=
  if l ≤ k ∧ k < l + m then σ (k - l) else φ k

section

variable {d l n k : Nat} {s t c c' : Nat → Nat} {v : α} {φ ψ σ τ : Nat → Option Nat} {x y z z' u : Tensor α}
  {shape : List Nat} {ss : List Int}

theorem fromLine_congr (h : ∀ e < x.shape.length, e ≠ d → c e = c' e) (p : Option Nat) :
    fromLine d v x c p = fromLine d v x c' p := by
  cases p with
  | none => rfl
  | some k =>
    refine read_congr x fun e he => ?_
    by_cases hed : e = d
    · rw [hed, update_self, update_self]
    · rw [update_of_ne hed, update_of_ne hed]
      exact h e he hed

theorem read_update (hd : d < x.shape.length) (hshape : y.shape = x.shape)
    (hcoord : ∀ e < x.shape.length, coord u.shape e = if e = d then n else t e)
    (hstart : ∀ e < x.shape.length, updateStart x.shape u.shape ss e = if e = d then l else s e)
    (hz : dynamicUpdateSlice ss u y = some z) (hc : Within x.shape c) :
    (InBox d x.shape.length s t c → l ≤ c d ∧ c d < l + n → z.read c = u.read fun e => c e - if e = d then l else s e) ∧
    (¬(InBox d x.shape.length s t c ∧ l ≤ c d ∧ c d < l + n) → z.read c = y.read c) := by
  obtain ⟨hok, -, hread⟩ := read_dynamicUpdateSlice hz
  rw [hshape] at hok hread
  have hrank := hok.2.length_eq
  have hiff : (∀ e < x.shape.length, updateStart x.shape u.shape ss e ≤ c e ∧
      c e < updateStart x.shape u.shape ss e + coord u.shape e) ↔
        InBox d x.shape.length s t c ∧ l ≤ c d ∧ c d < l + n := by
    constructor
    · intro h
      refine ⟨fun e he hed => ?_, ?_⟩
      · have hat := h e he
        rwa [hstart e he, hcoord e he, if_neg hed, if_neg hed] at hat
      · have hat := h d hd
        rwa [hstart d hd, hcoord d hd, if_pos rfl, if_pos rfl] at hat
    · rintro ⟨hbox, hline⟩ e he
      rw [hstart e he, hcoord e he]
      by_cases hed : e = d
      · rw [if_pos hed, if_pos hed, hed]
        exact hline
      · rw [if_neg hed, if_neg hed]
        exact hbox e he hed
  constructor
  · intro hbox hline
    rw [(hread c hc).1 (hiff.mpr ⟨hbox, hline⟩)]
    refine read_congr u fun e he => ?_
    rw [hstart e (hrank ▸ he)]
  · intro hnot
    exact (hread c hc).2 fun h => hnot (hiff.mp h)

theorem coord_le_of_update (h : dynamicUpdateSlice ss u y = some z) (hd : d < y.shape.length) :
    coord u.shape d ≤ coord y.shape d := by
  obtain ⟨hlen, hle⟩ := forall₂_iff_get.mp (read_dynamicUpdateSlice h).1.2
  have hat := hle d (hlen.symm ▸ hd) hd
  rwa [get_eq_getElem, get_eq_getElem, ← coord_eq_getElem, ← coord_eq_getElem] at hat

theorem Sourced.update (hd : d < x.shape.length) (hy : Sourced d s t v φ x y) (hu : Drawn d s t v σ n x u)
    (hstart : ∀ e < x.shape.length, updateStart x.shape u.shape ss e = if e = d then l else s e)
    (hz : dynamicUpdateSlice ss u y = some z) : Sourced d s t v (spliced l n σ φ) x z := by
  have hzshape := (read_dynamicUpdateSlice hz).2.1
  refine ⟨hzshape.trans hy.shape_eq, fun c hc hbox => ?_, fun c hc hbox => ?_⟩
  · obtain ⟨hin, hout⟩ := read_update hd hy.shape_eq hu.coord_eq hstart hz hc
    rw [spliced]
    split
    · rename_i hline
      have hwithin : Within u.shape fun e => c e - if e = d then l else s e := by
        intro e he
        rw [hu.rank_eq] at he
        rw [hu.coord_eq e he]
        by_cases hed : e = d
        · rw [if_pos hed, hed]
          beta_reduce
          rw [if_pos rfl]
          omega
        · have hat := hbox e he hed
          rw [if_neg hed]
          beta_reduce
          rw [if_neg hed]
          omega
      rw [hin hbox hline, hu.read_eq _ hwithin, if_pos rfl]
      refine fromLine_congr (fun e he hed => ?_) _
      have hat := hbox e he hed
      rw [if_neg hed]
      omega
    · rename_i hline
      rw [hout fun h => hline h.2]
      exact hy.read_in c hc hbox
  · obtain ⟨-, hout⟩ := read_update hd hy.shape_eq hu.coord_eq hstart hz hc
    rw [hout fun h => hbox h.1]
    exact hy.read_out c hc hbox

/-! ### The same elements -/

theorem Sourced.same (hd : d < x.shape.length) (hz : Sourced d s t v φ x z) (hz' : Sourced d s t v ψ x z')
    (h : (∃ e < x.shape.length, e ≠ d ∧ t e = 0) ∨ ∀ k < coord x.shape d, φ k = ψ k) : Same z z' := by
  refine same_of_read (hz.shape_eq.trans hz'.shape_eq.symm) fun c hc => ?_
  rw [hz.shape_eq] at hc
  by_cases hbox : InBox d x.shape.length s t c
  · rw [hz.read_in c hc hbox, hz'.read_in c hc hbox]
    rcases h with ⟨e, he, hed, hzero⟩ | h
    · have hat := hbox e he hed
      omega
    · rw [h _ (hc d hd)]
  · rw [hz.read_out c hc hbox, hz'.read_out c hc hbox]

theorem exists_fromLine_ne [Nontrivial α] (hd : d < shape.length) {p q : Option Nat} (hne : p ≠ q) (v : α)
    (c : Nat → Nat) : ∃ x : Tensor α, x.shape = shape ∧ fromLine d v x c p ≠ fromLine d v x c q := by
  obtain ⟨w, hw⟩ := exists_ne v
  cases p with
  | none =>
    cases q with
    | none => exact absurd rfl hne
    | some j => exact ⟨splat shape w, rfl, hw.symm⟩
  | some i =>
    cases q with
    | none => exact ⟨splat shape w, rfl, hw⟩
    | some j =>
      refine ⟨⟨shape, fun idx => if coord idx d = i then w else v⟩, rfl, ?_⟩
      have hread : ∀ j, (Tensor.mk shape fun idx => if coord idx d = i then w else v).read (update c d j) =
          if j = i then w else v := fun j => by
        rw [read_mark hd fun k => if k = i then w else v, update_self]
      rw [fromLine, fromLine, hread, hread, if_pos rfl, if_neg fun h => hne (congrArg some h.symm)]
      exact hw

theorem within_inBox (hbox : ∀ e < shape.length, e ≠ d → 0 < t e ∧ s e + t e ≤ coord shape e) (hk : k < coord shape d) :
    Within shape (update s d k) ∧ InBox d shape.length s t (update s d k) := by
  constructor
  · intro e he
    by_cases hed : e = d
    · rwa [hed, update_self]
    · have hat := hbox e he hed
      rw [update_of_ne hed]
      omega
  · intro e he hed
    have hat := hbox e he hed
    rw [update_of_ne hed]
    omega

theorem exists_not_same [Nontrivial α] (hd : d < shape.length)
    (hbox : ∀ e < shape.length, e ≠ d → 0 < t e ∧ s e + t e ≤ coord shape e) (hk : k < coord shape d)
    (hne : φ k ≠ ψ k) (v : α) : ∃ x : Tensor α, x.shape = shape ∧ ∀ z z', Sourced d s t v φ x z →
      Sourced d s t v ψ x z' → ¬Same z z' := by
  obtain ⟨hwithin, hin⟩ := within_inBox hbox hk
  obtain ⟨x, rfl, hx⟩ := exists_fromLine_ne hd hne v (update s d k)
  refine ⟨x, rfl, fun z z' hz hz' hsame => hx ?_⟩
  have heq := hsame.read_eq (hz.shape_eq ▸ hwithin)
  rwa [hz.read_in _ hwithin hin, hz'.read_in _ hwithin hin, update_self] at heq

/-! ### Slices, pads and splats -/

theorem Drawn.splat (hrank : shape.length = x.shape.length)
    (hshape : ∀ e < x.shape.length, coord shape e = if e = d then n else t e) :
    Drawn d s t v (fun _ => none) n x (splat shape v) :=
  ⟨hrank, hshape, fun _ _ => rfl⟩

theorem Drawn.slice {ds : List SliceDim} {a : Nat} (hu : Tensor.slice ds y = some u)
    (hrank : ds.length = x.shape.length) (hread : ∀ c : Nat → Nat, (∀ e < ds.length, c e < (sliceDim ds e).size) →
      (y.read fun e => (sliceDim ds e).source (c e)) = x.read fun e => (sliceDim ds e).source (c e))
    (hds : ∀ e < x.shape.length, (sliceDim ds e).size = (if e = d then n else t e) ∧
      ∀ k, (sliceDim ds e).source k = (if e = d then a else s e) + k) :
    Drawn d s t v (fun k => some (a + k)) n x u := by
  obtain ⟨-, -, -, hget⟩ := read_slice hu
  have hlen := (length_slice hu).trans hrank
  refine ⟨hlen, fun e he => ?_, fun c hc => ?_⟩
  · rw [coord_slice hu (hrank.symm ▸ he), (hds e he).1]
  · have hsize : ∀ e < ds.length, c e < (sliceDim ds e).size := by
      intro e he
      rw [← coord_slice hu he]
      exact hc e (hlen.symm ▸ hrank ▸ he)
    rw [hget c hc, hread c hsize, fromLine]
    refine read_congr x fun e he => ?_
    rw [(hds e he).2]
    by_cases hed : e = d
    · rw [if_pos hed, hed, update_self]
    · rw [if_neg hed, update_of_ne hed]

theorem Drawn.along {m : Nat} {p : Nat → Nat} (hd : d < x.shape.length) (hu : Drawn d s t v σ n x u)
    (hz : Along d u.shape m (fun idx k => u.get (idx.set d (p k))) z) (hp : ∀ k < m, p k < n) :
    Drawn d s t v (fun k => σ (p k)) m x z := by
  have hd' : d < u.shape.length := hu.rank_eq.symm ▸ hd
  have hrank : z.shape.length = u.shape.length := hz.length_shape
  have hcoord : ∀ e < x.shape.length, coord z.shape e = if e = d then m else t e := by
    intro e he
    by_cases hed : e = d
    · rw [if_pos hed, hed, hz.coord_shape hd']
    · rw [if_neg hed, hz.shape_eq, coord_set_of_ne hed, hu.coord_eq e he, if_neg hed]
  refine ⟨hrank.trans hu.rank_eq, hcoord, fun c hc => ?_⟩
  have hlt := hc d (hrank.symm ▸ hd')
  rw [hcoord d hd, if_pos rfl] at hlt
  have hmem : ((range u.shape.length).map c).set d 0 ∈ indices (u.shape.set d 1) := by
    have hmem := hc.mem_indices
    rw [hrank, hz.shape_eq] at hmem
    exact set_mem_indices hmem one_pos
  have hread : z.read c = u.read (update c d (p (c d))) := by
    have hget := hz.get_eq _ hmem (c d) hlt
    rw [set_set, set_set, ← map_update, ← map_update, update_eq_self] at hget
    rw [read, hrank, hget]
    rfl
  rw [hread, hu.read_eq, update_self]
  · refine fromLine_congr (fun e _ hed => ?_) _
    rw [update_of_ne hed]
  · intro e he
    rw [hu.rank_eq] at he
    rw [hu.coord_eq e he]
    by_cases hed : e = d
    · rw [if_pos hed, hed, update_self]
      exact hp _ hlt
    · have hce := hc e (hrank.symm ▸ hu.rank_eq.symm ▸ he)
      rw [hcoord e he, if_neg hed] at hce
      rwa [if_neg hed, update_of_ne hed]

theorem Drawn.pad {low high : Nat} (hd : d < x.shape.length) (hu : Drawn d s t v σ n x u)
    (hz : Tensor.pad (padAlong x.shape.length d low high) v u = some z) :
    Drawn d s t v (spliced low n σ fun _ => none) (low + (n + high)) x z := by
  obtain ⟨-, hrank, hshape⟩ := shape_pad hz
  have hlen : (padAlong x.shape.length d low high).length = x.shape.length := by
    rw [padAlong, length_set, length_replicate]
  have hdim : ∀ e < x.shape.length, padDim (padAlong x.shape.length d low high) e =
      if e = d then ⟨low, high, 0⟩ else ⟨0, 0, 0⟩ := by
    intro e he
    rw [padDim_eq_getElem (hlen.symm ▸ he)]
    simp only [padAlong, getElem_set, getElem_replicate]
    exact if_congr eq_comm rfl rfl
  have hcoord : ∀ e < x.shape.length, coord z.shape e = if e = d then low + (n + high) else t e := by
    intro e he
    rw [(hshape e (hlen.symm ▸ he)).2, hdim e he, hu.coord_eq e he]
    by_cases hed : e = d
    · rw [if_pos hed, if_pos hed, if_pos hed, PadDim.size_of_interior rfl]
      dsimp only
      omega
    · rw [if_neg hed, if_neg hed, if_neg hed, PadDim.size_of_interior rfl]
      dsimp only
      omega
  refine ⟨hrank.trans hlen, hcoord, fun c hc => ?_⟩
  have hother : ∀ e < x.shape.length, e ≠ d → (padDim (padAlong x.shape.length d low high) e).source
      (coord u.shape e) (c e) = some (c e) := by
    intro e he hed
    have hlt := hc e (hrank.symm ▸ hlen.symm ▸ he)
    rw [hcoord e he, if_neg hed] at hlt
    rw [hdim e he, if_neg hed, hu.coord_eq e he, if_neg hed]
    exact PadDim.source_none hlt
  obtain ⟨hinside, houtside⟩ := read_pad hz c
  rw [spliced]
  by_cases hline : low ≤ c d ∧ c d < low + n
  · rw [if_pos hline, hinside (update c d (c d - low)) fun e he => ?_]
    · rw [hu.read_eq _ fun e he => ?_, update_self]
      · refine fromLine_congr (fun e _ hed => ?_) _
        rw [update_of_ne hed]
      · rw [hu.rank_eq] at he
        rw [hu.coord_eq e he]
        by_cases hed : e = d
        · rw [if_pos hed, hed, update_self]
          omega
        · have hlt := hc e (hrank.symm ▸ hlen.symm ▸ he)
          rw [hcoord e he, if_neg hed] at hlt
          rwa [if_neg hed, update_of_ne hed]
    · rw [hlen] at he
      by_cases hed : e = d
      · rw [hed, update_self, hdim d hd, if_pos rfl, hu.coord_eq d hd, if_pos rfl, PadDim.source_of_interior rfl]
        dsimp only
        rw [if_pos ⟨by omega, by omega⟩]
        exact congrArg some (by omega)
      · rw [update_of_ne hed]
        exact hother e he hed
  · rw [if_neg hline]
    refine houtside ⟨d, hlen.symm ▸ hd, ?_⟩
    rw [hdim d hd, if_pos rfl, hu.coord_eq d hd, if_pos rfl, PadDim.source_of_interior rfl]
    dsimp only
    exact if_neg (by omega)

end

end Tensor
