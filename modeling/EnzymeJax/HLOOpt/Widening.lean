import EnzymeJax.HLOOpt.EdgeOps

/-!
# The elements of widened wraps and extends

The positions of the operand that the op and its neighbour take along the dimension, one after another, are those
that the wider op takes.
-/

namespace EnzymeJax.Widening

open Tensor Option Function
open List hiding allSome

/-! ### Positions -/

section

def part (a m : Nat) : SliceDim := ⟨a, (a + m : Nat), 1⟩

theorem size_part (a m : Nat) : (part a m).size = m := by
  rw [part, SliceDim.size_of_unit rfl]
  dsimp only
  omega

theorem source_part (a m k : Nat) : (part a m).source k = a + k := by
  rw [part, SliceDim.source]
  dsimp only
  omega

theorem positions_part (a m : Nat) (dims : List SliceDim) :
    positions (part a m :: dims) = (range m).map (a + ·) ++ positions dims := by
  rw [positions_cons, size_part]
  exact congrArg (· ++ _) (map_congr_left fun k _ => source_part a m k)

/-- The positions of the operand of extent `n` that the op takes. -/
def Kind.positions : Kind → Nat → Nat → Nat → List Nat
  | wrap, lhs, rhs, n => (List.range lhs).map (n - lhs + ·) ++ (List.range n ++ List.range rhs)
  | extend, lhs, rhs, n => List.range lhs ++ (List.range n ++ (List.range rhs).map (n - rhs + ·))

/-- Where `m` positions more to the left or right of the op start. -/
def Kind.place : Kind → Bool → Nat → Nat → Nat → Nat
  | wrap, true, existing, n, m => n - (m + existing)
  | wrap, false, existing, _, _ => existing
  | extend, true, _, _, _ => 0
  | extend, false, _, n, m => n - m

theorem range_add_map (m k a : Nat) :
    (range (m + k)).map (a + ·) = (range m).map (a + ·) ++ (range k).map (a + m + ·) := by
  rw [range_add, map_append, List.map_map]
  exact congrArg _ (map_congr_left fun j _ => (add_assoc a m j).symm)

variable {kind : Kind} {lhs rhs n m : Nat}

theorem positions_left (hfits : lhs + m ≤ n) (hexact : m = 0 ∨ kind = .wrap ∨ lhs = 0) :
    kind.positions (lhs + m) rhs n = (range m).map (kind.place true lhs n m + ·) ++ kind.positions lhs rhs n := by
  cases kind with
  | wrap =>
    have hstart : n - (m + lhs) + m = n - lhs := by omega
    rw [Kind.positions, Kind.positions, Kind.place, add_comm lhs m, range_add_map, hstart, append_assoc]
  | extend =>
    rw [Kind.positions, Kind.positions, Kind.place]
    simp only [Nat.zero_add, List.map_id', ← append_assoc]
    rcases hexact with rfl | hkind | rfl
    · simp
    · cases hkind
    · simp

theorem positions_right (hexact : m = 0 ∨ kind = .wrap ∨ rhs = 0) :
    kind.positions lhs (rhs + m) n = kind.positions lhs rhs n ++ (range m).map (kind.place false rhs n m + ·) := by
  cases kind with
  | wrap =>
    rw [Kind.positions, Kind.positions, Kind.place, range_add, append_assoc, append_assoc]
  | extend =>
    rw [Kind.positions, Kind.positions, Kind.place, append_assoc, append_assoc]
    rcases hexact with rfl | hkind | rfl
    · simp
    · cases hkind
    · simp

end

/-! ### Borders -/

section

variable {α : Type} {kind : Kind} {d a m lhs rhs : Nat} {x y : Tensor α}

theorem taken_across (j : Nat) (c : Nat → Nat) : taken d (fun _ k => k) j c = update c d j := by
  funext k
  rw [taken, update_apply]

theorem takenAlong_slice (hd : d < x.shape.length) {start limit : Int} (hstart : start = a)
    (hlimit : limit = (a + m : Nat)) (h : slice (sliceAlong d start limit x.shape) x = some y) :
    TakenAlong d (fun _ k => k) x (part a m) y := by
  obtain ⟨-, -, -, hshape, hread⟩ := read_sliceAlong hd h
  refine ⟨?_, fun c hc => ?_⟩
  · rw [hshape, coord_set_self hd, size_part]
    omega
  · rw [hread c hc, taken_across, source_part, hstart, Int.toNat_natCast]

theorem takenAlong_self (d : Nat) (x : Tensor α) :
    TakenAlong d (fun _ k => k) x (part 0 (coord x.shape d)) x := by
  refine ⟨(size_part _ _).symm, fun c hc => ?_⟩
  rw [taken_across, source_part, zero_add, update_eq_self]

theorem takenAlong_border (hd : d < x.shape.length) {start limit : Int} {sl : List (Tensor α)}
    (hstart : m ≠ 0 → 0 ≤ start → start = a) (hlimit : m ≠ 0 → 0 ≤ start → limit = (a + m : Nat))
    (h : border ((m : Int) ≠ 0) d start limit x = some sl) :
    (m ≠ 0 → 0 ≤ start ∧ limit ≤ coord x.shape d) ∧ ∃ dims, Forall₂ (TakenAlong d (fun _ k => k) x) dims sl ∧
        ∀ dims', positions (dims ++ dims') = (range m).map (a + ·) ++ positions dims' := by
  rw [border] at h
  split at h
  · rename_i hpresent
    obtain ⟨t, ht, rfl⟩ := map_eq_some_iff.mp h
    obtain ⟨hnonneg, -, hle, -, -⟩ := read_sliceAlong hd ht
    have hne : m ≠ 0 := by
      rintro rfl
      exact absurd hpresent (by decide)
    refine ⟨fun _ => ⟨hnonneg, hle⟩, [part a m], .cons ?_ .nil, fun dims' => positions_part a m dims'⟩
    exact takenAlong_slice hd (hstart hne hnonneg) (hlimit hne hnonneg) ht
  · rename_i hpresent
    cases h
    have hzero : m = 0 := by
      by_contra hne
      exact hpresent (decide_eq_true (by omega))
    refine ⟨fun hne => absurd hzero hne, [], .nil, fun dims' => ?_⟩
    rw [hzero]
    rfl

section

variable (h : kind.lower d lhs rhs x = some y)

include h

theorem lower_spec :
    lhs ≤ coord x.shape d ∧ rhs ≤ coord x.shape d ∧ d < x.shape.length ∧ x.shape.set d 0 = y.shape.set d 0 ∧
      ∃ dims ss, Forall₂ (TakenAlong d (fun _ k => k) x) dims ss ∧ Lines d y.shape [y] ss ∧
        positions dims = kind.positions lhs rhs (coord x.shape d) := by
  -- both ops concatenate a border, the operand and a border
  have hborders : ∀ {a₀ a₁ : Nat} {sl0 sl1 : List (Tensor α)},
      (∃ dims, Forall₂ (TakenAlong d (fun _ k => k) x) dims sl0 ∧
        ∀ dims', positions (dims ++ dims') = (range lhs).map (a₀ + ·) ++ positions dims') →
      (∃ dims, Forall₂ (TakenAlong d (fun _ k => k) x) dims sl1 ∧
        ∀ dims', positions (dims ++ dims') = (range rhs).map (a₁ + ·) ++ positions dims') →
      concatenate d (sl0 ++ x :: sl1) = some y → d < x.shape.length →
      ∃ dims ss, Forall₂ (TakenAlong d (fun _ k => k) x) dims ss ∧ Lines d y.shape [y] ss ∧
        positions dims = (range lhs).map (a₀ + ·) ++ (range (coord x.shape d) ++ (range rhs).map (a₁ + ·)) := by
    rintro a₀ a₁ sl0 sl1 ⟨dims₀, htaken₀, hpos₀⟩ ⟨dims₁, htaken₁, hpos₁⟩ hcat hd
    refine ⟨dims₀ ++ part 0 (coord x.shape d) :: dims₁, sl0 ++ x :: sl1,
      rel_append htaken₀ (.cons (takenAlong_self d x) htaken₁), Lines.of_concatenate hcat, ?_⟩
    have hlast := hpos₁ []
    rw [append_nil] at hlast
    rw [hpos₀, positions_part, hlast]
    simp [positions]
  have hrank : ∀ {sl0 sl1 : List (Tensor α)}, concatenate d (sl0 ++ x :: sl1) = some y →
      d < x.shape.length ∧ x.shape.set d 0 = y.shape.set d 0 := by
    intro sl0 sl1 hcat
    obtain ⟨hd, -, hfits, -⟩ := pieces_of_concatenate hcat
    have hx : x ∈ sl0 ++ x :: sl1 := mem_append_right _ mem_cons_self
    exact ⟨by rwa [hfits.length_shape hx], hfits x hx⟩
  cases kind with
  | wrap =>
    obtain ⟨sl0, hsl0, h⟩ := bind_eq_some_iff.mp h
    obtain ⟨sl1, hsl1, hcat⟩ := bind_eq_some_iff.mp h
    obtain ⟨hd, hshape⟩ := hrank hcat
    obtain ⟨hle₀, htaken₀⟩ := takenAlong_border (a := coord x.shape d - lhs) (m := lhs) hd
      (by omega) (by omega) hsl0
    obtain ⟨hle₁, htaken₁⟩ := takenAlong_border (a := 0) (m := rhs) hd (fun _ _ => rfl)
      (fun _ _ => by omega) hsl1
    refine ⟨by omega, by omega, hd, hshape, ?_⟩
    obtain ⟨dims, ss, htaken, hlines, hpositions⟩ := hborders htaken₀ htaken₁ hcat hd
    simp only [Nat.zero_add, List.map_id'] at hpositions
    exact ⟨dims, ss, htaken, hlines, hpositions⟩
  | extend =>
    obtain ⟨sl0, hsl0, h⟩ := bind_eq_some_iff.mp h
    obtain ⟨sl1, hsl1, hcat⟩ := bind_eq_some_iff.mp h
    obtain ⟨hd, hshape⟩ := hrank hcat
    obtain ⟨hle₀, htaken₀⟩ := takenAlong_border (a := 0) (m := lhs) hd (fun _ _ => rfl)
      (fun _ _ => by omega) hsl0
    obtain ⟨hle₁, htaken₁⟩ := takenAlong_border (a := coord x.shape d - rhs) (m := rhs) hd
      (by omega) (by omega) hsl1
    refine ⟨by omega, by omega, hd, hshape, ?_⟩
    obtain ⟨dims, ss, htaken, hlines, hpositions⟩ := hborders htaken₀ htaken₁ hcat hd
    simp only [Nat.zero_add, List.map_id'] at hpositions
    exact ⟨dims, ss, htaken, hlines, hpositions⟩

theorem shape_lower :
    y.shape = x.shape.set d (lhs + (coord x.shape d + rhs)) := by
  obtain ⟨hlhs, hrhs, hd, -⟩ := lower_spec h
  cases kind with
  | wrap =>
    obtain ⟨y', hy', halong⟩ := along_lowerWrap hd (Along.self hd) hlhs hrhs
    cases hy'.symm.trans h
    exact halong.shape_eq
  | extend =>
    obtain ⟨y', hy', halong⟩ := along_lowerExtend hd (Along.self hd) hlhs hrhs
    cases hy'.symm.trans h
    exact halong.shape_eq

theorem coord_lower :
    coord y.shape d = lhs + (coord x.shape d + rhs) := by
  obtain ⟨-, -, hd, -⟩ := lower_spec h
  rw [shape_lower h, coord_set_self hd]

end

theorem exists_lower (kind : Kind) (hd : d < x.shape.length) (hlhs : lhs ≤ coord x.shape d)
    (hrhs : rhs ≤ coord x.shape d) : ∃ y, kind.lower d lhs rhs x = some y := by
  cases kind with
  | wrap =>
    obtain ⟨y, hy, -⟩ := along_lowerWrap hd (Along.self hd) hlhs hrhs
    exact ⟨y, hy⟩
  | extend =>
    obtain ⟨y, hy, -⟩ := along_lowerExtend hd (Along.self hd) hlhs hrhs
    exact ⟨y, hy⟩

end

/-! ### Slices that are recognised -/

section

variable {α : Type} {g : Graph} {env : Nat → Tensor α} {along : Nat → SliceDim → SliceDim → Bool}
  {d k n m x w o : Nat} {c : Nat → Nat} {dims : List SliceDim}

/-- The value that `operand` is compared with as the source of a slice. -/
def Sourced (g : Graph) (x o : Nat) : Prop := o = x ∨ ∃ op, g.defOp x = some (.slice op) ∧ op.operand = o

variable {shape xs ws : List Nat}

theorem getD_fullDims {j : Nat} (hj : j < shape.length) :
    (fullDims shape).getD j ⟨0, 0, 1⟩ = ⟨0, coord shape j, 1⟩ := by
  rw [fullDims, getD_eq_getElem _ _ (by rwa [length_map]), getElem_map, coord_eq_getElem hj]

/-- The indices that those of a slice are compared with are of the extents of the operand. If they are from the
same value, they say where its elements are. -/
theorem sourceDims_spec (hrun : g.Runs env) (h : sourceDims g x o = some dims) :
    (∀ j < (g.shape x).length, 0 ≤ (dims.getD j ⟨0, 0, 1⟩).start ∧
      (dims.getD j ⟨0, 0, 1⟩).start ≤ (dims.getD j ⟨0, 0, 1⟩).limit ∧
        (dims.getD j ⟨0, 0, 1⟩).size = coord (g.shape x) j) ∧
      (Sourced g x o → (g.shape o).length = (g.shape x).length ∧ ∀ c, Within (g.shape x) c →
        (env x).read c = (env o).read fun j => (dims.getD j ⟨0, 0, 1⟩).source (c j)) := by
  have hfull : ∀ j < (g.shape x).length, 0 ≤ ((fullDims (g.shape x)).getD j ⟨0, 0, 1⟩).start ∧
      ((fullDims (g.shape x)).getD j ⟨0, 0, 1⟩).start ≤ ((fullDims (g.shape x)).getD j ⟨0, 0, 1⟩).limit ∧
        ((fullDims (g.shape x)).getD j ⟨0, 0, 1⟩).size = coord (g.shape x) j := by
    intro j hj
    rw [getD_fullDims hj, SliceDim.size_of_unit rfl]
    exact ⟨le_rfl, Int.natCast_nonneg _, by simp⟩
  rw [sourceDims] at h
  split at h
  · rename_i hne
    split at h
    · rename_i op hop
      split at h
      · cases h
      · rename_i heq
        cases h
        rw [not_not] at heq
        have heval : op.eval env = some (env x) := hrun.eval_eq x _ hop
        obtain ⟨hlen, hshape, hok, hread⟩ := eval_slice heval
        rw [hrun.shape_eq] at hread hlen
        have hrank : op.dims.length = (g.shape x).length := by
          rw [← hrun.shape_eq, hshape, length_map]
        refine ⟨fun j hj => ?_, fun _ => ⟨by rw [heq, ← hlen, hrank], fun c hc => ?_⟩⟩
        · obtain ⟨hstart, hle, -, -⟩ := hok j (hrank.symm ▸ hj)
          refine ⟨hstart, hle, ?_⟩
          rw [← hrun.shape_eq, coord_eval heval (hrank.symm ▸ hj)]
          rfl
        · rw [hread c hc, heq]
          rfl
    · rename_i hnot
      cases h
      refine ⟨hfull, fun hsourced => ?_⟩
      rcases hsourced with rfl | ⟨op, hop, -⟩
      · exact absurd rfl hne
      · exact absurd hop (hnot op)
  · rename_i heq
    cases h
    obtain rfl := not_not.mp heq
    refine ⟨hfull, fun _ => ⟨rfl, fun c hc => read_congr _ fun j hj => ?_⟩⟩
    rw [hrun.shape_eq] at hj
    rw [getD_fullDims hj, SliceDim.source]
    dsimp only
    omega

theorem not_within_of_mem_zero (h : 0 ∈ shape) : ¬Within shape c := by
  intro hc
  obtain ⟨j, hj, hzero⟩ := getElem_of_mem h
  have hlt := hc j hj
  rw [coord_eq_getElem hj, hzero] at hlt
  exact Nat.not_lt_zero _ hlt

/-- Where the test along the dimension says that a slice of extent `m` starts, of an operand of extent `n`. -/
def StartsAt (along : Nat → SliceDim → SliceDim → Bool) (k : Int) (n m : Nat) : Prop :=
  ∀ s t : SliceDim, along m s t = true → s.stride = 1 ∧ t.stride = 1 ∧
    (s.limit - s.start = m → t.limit - t.start = n → s.start = t.start + k)

theorem within_place {shape' : List Nat} (hd : d < shape.length) (hrank : shape'.length = shape.length)
    (hcoord : ∀ j < shape.length, j ≠ d → coord shape' j = coord shape j)
    (hfits : k + coord shape' d ≤ coord shape d) (hc : Within shape' c) : Within shape (update c d (k + c d)) := by
  intro j hj
  by_cases hjd : j = d
  · have hlt := hc d (hrank.symm ▸ hd)
    rw [hjd, update_self]
    omega
  · rw [update_of_ne hjd, ← hcoord j hj hjd]
    exact hc j (hrank.symm ▸ hj)

theorem slice_of_isOf (hrun : g.Runs env) {op : SliceOp} (hop : g.defOp w = some (.slice op))
    (hdims : sourceDims g x op.operand = some dims)
    (hall : ∀ j < (g.shape x).length, if j ≠ d then (op.dim j).start = (dims.getD j ⟨0, 0, 1⟩).start ∧
      (op.dim j).limit = (dims.getD j ⟨0, 0, 1⟩).limit ∧ (op.dim j).stride = (dims.getD j ⟨0, 0, 1⟩).stride
      else along (coord (g.shape w) j) (op.dim j) (dims.getD j ⟨0, 0, 1⟩) = true)
    (hd : d < (g.shape x).length) (hrank : (g.shape w).length = (g.shape x).length)
    (hstarts : StartsAt along k (coord (g.shape x) d) (coord (g.shape w) d)) :
    (∀ j < (g.shape x).length, j ≠ d → coord (g.shape w) j = coord (g.shape x) j) ∧
      (Sourced g x op.operand → k + coord (g.shape w) d ≤ coord (g.shape x) d →
        ∀ c, Within (g.shape w) c → (env w).read c = (env x).read (update c d (k + c d))) := by
  have heval : op.eval env = some (env w) := hrun.eval_eq w _ hop
  obtain ⟨hlen, hshape, hok, hread⟩ := eval_slice heval
  have hranks : op.dims.length = (g.shape x).length := by
    rw [← hrank, ← hrun.shape_eq, hshape, length_map]
  obtain ⟨hbounds, hsourced⟩ := sourceDims_spec hrun hdims
  have hdim : ∀ j < (g.shape x).length, j ≠ d → op.dim j = dims.getD j ⟨0, 0, 1⟩ := by
    intro j hj hne
    have hat := hall j hj
    rw [if_pos hne] at hat
    obtain ⟨hstart, hlimit, hstride⟩ := hat
    cases hs : op.dim j
    cases ht : dims.getD j ⟨0, 0, 1⟩
    rw [hs, ht] at hstart hlimit hstride
    simp only [SliceDim.mk.injEq]
    exact ⟨hstart, hlimit, hstride⟩
  have hcoord : ∀ j < (g.shape x).length, j ≠ d → coord (g.shape w) j = coord (g.shape x) j := by
    intro j hj hne
    rw [← hrun.shape_eq w, coord_eval heval (hranks.symm ▸ hj), hdim j hj hne, (hbounds j hj).2.2]
  refine ⟨hcoord, fun hsrc hfits c hc => ?_⟩
  obtain ⟨hranko, hreadx⟩ := hsourced hsrc
  rw [hread c (by rwa [hrun.shape_eq]), hreadx _ (within_place hd hrank hcoord hfits hc)]
  refine read_congr _ fun j hj => ?_
  rw [hrun.shape_eq, hranko] at hj
  by_cases hjd : j = d
  · subst hjd
    have hat := hall j hd
    rw [if_neg (not_not.mpr rfl)] at hat
    obtain ⟨hunit, hunit', hstart⟩ := hstarts _ _ hat
    obtain ⟨hnonneg, hle, hsize⟩ := hbounds j hd
    obtain ⟨hnonneg', hle', -, -⟩ := hok j (hranks.symm ▸ hd)
    have hsize' := coord_eval heval (hranks.symm ▸ hd)
    rw [hrun.shape_eq, SliceDim.size_of_unit hunit] at hsize'
    rw [SliceDim.size_of_unit hunit'] at hsize
    have hat := hstart (by omega) (by omega)
    rw [update_self, SliceDim.source, SliceDim.source, hunit, hunit']
    omega
  · rw [update_of_ne hjd, hdim j hj hjd]

theorem pieceAt_update {xs ws : List (Tensor α)} (hne : d ≠ o)
    (h : Forall₂ (fun x w => coord w.shape o = coord x.shape o ∧
      ∀ c, Within w.shape c → w.read c = x.read (update c d (k + c d))) xs ws)
    (hc : ∀ w ∈ ws, ∀ j < w.shape.length, j ≠ o → c j < coord w.shape j) :
    pieceAt o ws c = pieceAt o xs (update c d (k + c d)) := by
  induction h generalizing c with
  | nil => rfl
  | cons hxw _ ih =>
    rename_i x w xs ws hrest
    obtain ⟨hcoord, hread⟩ := hxw
    rw [pieceAt, pieceAt, update_of_ne hne.symm, hcoord]
    split
    · rename_i hlt
      refine congrArg some (hread c fun j hj => ?_)
      by_cases hjo : j = o
      · rw [hjo, hcoord]
        exact hlt
      · exact hc w mem_cons_self j hj hjo
    · have htail := ih (c := update c o (c o - coord x.shape o)) fun w' hw' j hj hjo => by
        rw [update_of_ne hjo]
        exact hc w' (mem_cons_of_mem _ hw') j hj hjo
      rw [htail, update_of_ne hne, update_comm hne]

theorem coord_of_fits {t : Tensor α} {ts : List (Tensor α)} (hfits : FitTogether o shape ts) (ht : t ∈ ts)
    {j : Nat} (hj : j ≠ o) : coord t.shape j = coord shape j := by
  have hcoord := congrArg (coord · j) (hfits t ht)
  rwa [coord_set_of_ne hj, coord_set_of_ne hj] at hcoord

/-- What is recognised of a value: the extents, and the elements from `k` on if the slices are related. -/
def Recognised (g : Graph) (env : Nat → Tensor α) (d k x w : Nat) : Prop :=
  (∀ j < (g.shape x).length, j ≠ d → coord (g.shape w) j = coord (g.shape x) j) ∧
    (g.Related x w → k + coord (g.shape w) d ≤ coord (g.shape x) d →
      ∀ c, Within (g.shape w) c → (env w).read c = (env x).read (Function.update c d (k + c d)))

theorem mem_zip (hlen : ws.length = xs.length) {i : Nat} (hi : i < xs.length) : (xs[i], ws[i]) ∈ zip xs ws :=
  mem_iff_getElem.mpr ⟨i, by rw [length_zip]; omega, getElem_zip⟩

theorem recognised_concatenate (hrun : g.Runs env) (hopx : g.defOp x = some (.concatenate xs o))
    (hopw : g.defOp w = some (.concatenate ws o)) (hne : d ≠ o) (hlen : ws.length = xs.length)
    (hd : d < (g.shape x).length) (hrank : (g.shape w).length = (g.shape x).length)
    (hzip : ∀ p ∈ zip xs ws, (g.shape p.2).length = (g.shape p.1).length →
      (g.shape p.1).length = (g.shape x).length → coord (g.shape p.1) d = coord (g.shape x) d →
        coord (g.shape p.2) d = coord (g.shape w) d → Recognised g env d k p.1 p.2) : Recognised g env d k x w := by
  have hx : concatenate o (xs.map env) = some (env x) := hrun.eval_eq x _ hopx
  have hw : concatenate o (ws.map env) = some (env w) := hrun.eval_eq w _ hopw
  obtain ⟨-, hnil, hfitsx, -⟩ := pieces_of_concatenate hx
  obtain ⟨hdw, -, hfitsw, -⟩ := pieces_of_concatenate hw
  rw [hrun.shape_eq] at hfitsx hfitsw hdw
  have hdx : o < (g.shape x).length := hrank ▸ hdw
  have hshapex : ∀ v ∈ xs, (g.shape v).length = (g.shape x).length ∧
      ∀ j, j ≠ o → coord (g.shape v) j = coord (g.shape x) j := by
    intro v hv
    rw [← hrun.shape_eq v]
    exact ⟨hfitsx.length_shape (mem_map_of_mem hv), fun j hj => coord_of_fits hfitsx (mem_map_of_mem hv) hj⟩
  have hshapew : ∀ v ∈ ws, (g.shape v).length = (g.shape w).length ∧
      ∀ j, j ≠ o → coord (g.shape v) j = coord (g.shape w) j := by
    intro v hv
    rw [← hrun.shape_eq v]
    exact ⟨hfitsw.length_shape (mem_map_of_mem hv), fun j hj => coord_of_fits hfitsw (mem_map_of_mem hv) hj⟩
  have hzip : ∀ p ∈ zip xs ws, (∀ j < (g.shape x).length, j ≠ d →
      coord (g.shape p.2) j = coord (g.shape p.1) j) ∧ (g.Related p.1 p.2 →
        k + coord (g.shape w) d ≤ coord (g.shape x) d → ∀ c, Within (g.shape p.2) c →
          (env p.2).read c = (env p.1).read (update c d (k + c d))) := by
    intro p hp
    obtain ⟨hpx, hpw⟩ := of_mem_zip hp
    obtain ⟨hrankx, hcoordx⟩ := hshapex _ hpx
    obtain ⟨hrankw, hcoordw⟩ := hshapew _ hpw
    have hat := hzip p hp (hrankw.trans (hrank.trans hrankx.symm)) hrankx (hcoordx d hne) (hcoordw d hne)
    rwa [Recognised, hrankx, hcoordx d hne, hcoordw d hne] at hat
  have hcoord : ∀ j < (g.shape x).length, j ≠ d → coord (g.shape w) j = coord (g.shape x) j := by
    intro j hj hjd
    by_cases hjo : j = o
    · have htotal : total o (ws.map env) = total o (xs.map env) := by
        rw [total, total, List.map_map, List.map_map]
        refine congrArg sum (ext_getElem (by simp [hlen]) fun i hi hi' => ?_)
        rw [length_map] at hi hi'
        rw [getElem_map, getElem_map, comp_apply, comp_apply, hrun.shape_eq, hrun.shape_eq]
        exact (hzip _ (mem_zip hlen hi')).1 o hdx hne.symm
      rw [hjo, ← hrun.shape_eq w, ← hrun.shape_eq x, coord_concatenate hx, coord_concatenate hw, htotal]
    · obtain ⟨t, ht⟩ := exists_mem_of_ne_nil _ hnil
      obtain ⟨v, hv, rfl⟩ := mem_map.mp ht
      obtain ⟨i, hi, rfl⟩ := getElem_of_mem hv
      have hi' : i < ws.length := hlen.symm ▸ hi
      rw [← (hshapew _ (getElem_mem hi')).2 j hjo, ← (hshapex _ (getElem_mem hi)).2 j hjo]
      exact (hzip _ (mem_zip hlen hi)).1 j hj hjd
  refine ⟨hcoord, fun hrelated hfits c hc => ?_⟩
  have hpairs : ∀ p ∈ zip xs ws, g.Related p.1 p.2 := by
    cases hrelated with
    | same hop' _ | common hop' _ _ =>
      rw [hopw] at hop'
      cases hop'
    | empty hzero => exact absurd hc (not_within_of_mem_zero hzero)
    | concatenate hopx' hopw' hpairs =>
      rw [hopx] at hopx'
      rw [hopw] at hopw'
      obtain ⟨rfl, -⟩ := Op.concatenate.inj (some.inj hopx')
      obtain ⟨rfl, -⟩ := Op.concatenate.inj (some.inj hopw')
      exact hpairs
  have hparts : Forall₂ (fun x w : Tensor α => coord w.shape o = coord x.shape o ∧
      ∀ c, Within w.shape c → w.read c = x.read (update c d (k + c d))) (xs.map env) (ws.map env) := by
    rw [forall₂_map_left_iff, forall₂_map_right_iff, forall₂_iff_zip]
    refine ⟨hlen.symm, fun {a b} hmem => ?_⟩
    obtain ⟨hcoord, hread⟩ := hzip _ hmem
    rw [hrun.shape_eq, hrun.shape_eq]
    exact ⟨hcoord o hdx hne.symm, hread (hpairs _ hmem) hfits⟩
  have hupd := within_place hd hrank hcoord hfits hc
  have hreadw := read_concatenate hw (by rwa [hrun.shape_eq])
  have hreadx := read_concatenate hx (by rwa [hrun.shape_eq])
  rw [pieceAt_update hne hparts, ← hreadx] at hreadw
  · exact some.inj hreadw
  · intro t ht j hj hjo
    rw [coord_of_fits hfitsw ht hjo]
    exact hc j (by rwa [← hfitsw.length_shape ht])

theorem recognised_of_isOf (hrun : g.Runs env) {fuel : Nat} (h : isOf g along d fuel x w = true)
    (hd : d < (g.shape x).length) (hrank : (g.shape w).length = (g.shape x).length)
    (hstarts : StartsAt along k (coord (g.shape x) d) (coord (g.shape w) d)) : Recognised g env d k x w := by
  induction fuel generalizing x w with
  | zero => cases h
  | succ fuel ih =>
    rw [isOf] at h
    split at h
    · rename_i op hop
      split at h
      · cases h
      · rename_i dims hdims
        have hall : ∀ j < (g.shape x).length, if j ≠ d then
            (op.dim j).start = (dims.getD j ⟨0, 0, 1⟩).start ∧ (op.dim j).limit = (dims.getD j ⟨0, 0, 1⟩).limit ∧
                (op.dim j).stride = (dims.getD j ⟨0, 0, 1⟩).stride
            else along (coord (g.shape w) j) (op.dim j) (dims.getD j ⟨0, 0, 1⟩) = true := by
          intro j hj
          have hat := all_eq_true.mp h j (mem_range.mpr hj)
          dsimp only at hat
          by_cases hjd : j = d
          · rwa [if_neg (not_not.mpr hjd)] at hat ⊢
          · rw [if_pos hjd] at hat ⊢
            exact of_decide_eq_true hat
        obtain ⟨hcoord, hread⟩ := slice_of_isOf hrun hop hdims hall hd hrank hstarts
        refine ⟨hcoord, fun hrelated hfits c hc => ?_⟩
        cases hrelated with
        | same hop' hx =>
          rw [hop] at hop'
          obtain rfl := Op.slice.inj (some.inj hop')
          exact hread (.inl hx) hfits c hc
        | common hop' hopx heq =>
          rw [hop] at hop'
          obtain rfl := Op.slice.inj (some.inj hop')
          exact hread (.inr ⟨_, hopx, heq.symm⟩) hfits c hc
        | empty hzero => exact absurd hc (not_within_of_mem_zero hzero)
        | concatenate _ hopw _ =>
          rw [hop] at hopw
          cases hopw
    · rename_i ws widenDim hopw
      split at h
      · rename_i xs concatDim hopx
        simp only [Bool.decide_and, Bool.and_eq_true, decide_eq_true_eq] at h
        obtain ⟨rfl, hne, hlen, hall⟩ := h
        refine recognised_concatenate hrun hopx hopw (Ne.symm hne) hlen hd hrank
          fun p hp hrankp hrankx hcoordx hcoordw => ?_
        exact ih (all_eq_true.mp hall p hp) (hrankx.symm ▸ hd) hrankp (by rwa [hcoordx, hcoordw])
      · cases h
    · cases h

end

/-! ### The neighbour -/

section

variable {α : Type} {g : Graph} {env : Nat → Tensor α} {kind : Kind} {e : Edge} {neighbour amount : Nat}
  {onLeft : Bool} {existing n m x w r : Nat}

/-- The test along the dimension. -/
def Kind.along (kind : Kind) (onLeft : Bool) (existing : Nat) : Nat → SliceDim → SliceDim → Bool :=
  match kind with
  | wrap => sliceAlongWrap onLeft ((existing : Int).bmod (2 ^ 32))
  | extend => sliceAlongExtend onLeft

/-- The border that there was is told. -/
def Kind.Exact : Kind → Nat → Prop
  | wrap, existing => existing < 2 ^ 31
  | extend, existing => existing = 0

theorem startsAt_place (hfits : existing + m ≤ n) (hexact : kind.Exact existing) :
    StartsAt (kind.along onLeft existing) (kind.place onLeft existing n m) n m := by
  intro s t h
  cases kind with
  | wrap =>
    have hexact : existing < 2 ^ 31 := hexact
    have hbmod : (existing : Int).bmod (2 ^ 32) = existing := Int.bmod_eq_of_le (by omega) (by omega)
    obtain ⟨hs, ht, hstart⟩ := of_decide_eq_true h
    rw [hbmod] at hstart
    refine ⟨hs, ht, fun hm hn => ?_⟩
    cases onLeft with
    | true =>
      rw [if_pos rfl] at hstart
      rw [Kind.place]
      omega
    | false =>
      rw [if_neg Bool.false_ne_true] at hstart
      rw [Kind.place]
      exact hstart
  | extend =>
    obtain rfl : existing = 0 := hexact
    obtain ⟨hs, ht, -, hstart⟩ := of_decide_eq_true h
    refine ⟨hs, ht, fun hm hn => ?_⟩
    cases onLeft with
    | true =>
      rw [if_pos rfl] at hstart
      rw [Kind.place]
      omega
    | false =>
      rw [if_neg Bool.false_ne_true] at hstart
      rw [Kind.place]
      omega

theorem amount_spec (h : e.amount g neighbour onLeft = some amount)
    (hcompared : e.kind.compared g e.operand neighbour = (x, w, r)) :
    isOf g (e.kind.along onLeft (if onLeft then e.lhs else e.rhs)) (e.dim + r) (w + 1) x w = true ∧
      coord (g.shape w) (e.dim + r) = amount := by
  obtain ⟨kind, operand, lhs, rhs, dim⟩ := e
  rw [Edge.amount, hcompared] at h
  cases kind with
  | wrap =>
    obtain ⟨hisOf, hamount⟩ := ite_none_right_eq_some.mp h
    refine ⟨?_, some.inj hamount⟩
    cases onLeft with
    | true | false => exact hisOf
  | extend =>
    obtain ⟨hisOf, hamount⟩ := ite_none_right_eq_some.mp h
    simp only [Kind.compared, Prod.mk.injEq] at hcompared
    obtain ⟨rfl, rfl, rfl⟩ := hcompared
    exact ⟨hisOf, some.inj hamount⟩

def inFront (c : Nat → Nat) : Nat → Nat
  | 0 => 0
  | j + 1 => c j

theorem read_outerReshape {u v : Nat} (hrun : g.Runs env) (hop : g.defOp v = some (.reshape u))
    (hshape : g.shape u = 1 :: g.shape v) {c : Nat → Nat} (hc : Within (g.shape v) c) :
    (env v).read c = (env u).read (inFront c) := by
  have heval : Tensor.reshape (g.shape v) (env u) = some (env v) := hrun.eval_eq v _ hop
  have hidx : (range (g.shape v).length).map c ∈ indices (g.shape v) := hc.mem_indices
  have hfront : (range (g.shape u).length).map (inFront c) = 0 :: (range (g.shape v).length).map c := by
    rw [hshape, length_cons, range_succ_eq_map, map_cons, List.map_map]
    rfl
  rw [Tensor.read, Tensor.read, hrun.shape_eq, hrun.shape_eq, hfront]
  refine reshape_get_of_ravel_eq heval ?_ ?_
  · rw [hrun.shape_eq, hshape]
    exact cons_mem_indices.mpr ⟨one_pos, hidx⟩
  · rw [hrun.shape_eq, hshape, ravel, zero_mul, zero_add]

theorem compared_cases (hcompared : e.kind.compared g e.operand neighbour = (x, w, r)) :
    (x = e.operand ∧ w = neighbour ∧ r = 0) ∨ (g.defOp e.operand = some (.reshape x) ∧
      g.defOp neighbour = some (.reshape w) ∧ g.shape x = 1 :: g.shape e.operand ∧
        g.shape w = 1 :: g.shape neighbour ∧ r = 1) := by
  obtain ⟨kind, operand, lhs, rhs, dim⟩ := e
  cases kind with
  | wrap =>
    change behindReshapes g operand neighbour = (x, w, r) at hcompared
    rw [behindReshapes] at hcompared
    split at hcompared
    · rename_i rsOperand rsNeighbour hop hop'
      split at hcompared
      · rename_i houter
        have hshape := of_decide_eq_true houter.1
        have hshape' := of_decide_eq_true houter.2
        rw [Prod.mk.injEq, Prod.mk.injEq] at hcompared
        obtain ⟨hx, hw, hr⟩ := hcompared
        subst hx hw
        refine .inr ⟨hop, hop', hshape, hshape', ?_⟩
        rw [← hr, hshape', length_cons]
        omega
      · rw [Prod.mk.injEq, Prod.mk.injEq] at hcompared
        obtain ⟨hx, hw, hr⟩ := hcompared
        exact .inl ⟨hx.symm, hw.symm, hr.symm⟩
    · rw [Prod.mk.injEq, Prod.mk.injEq] at hcompared
      obtain ⟨hx, hw, hr⟩ := hcompared
      exact .inl ⟨hx.symm, hw.symm, hr.symm⟩
  | extend =>
    change (operand, neighbour, 0) = (x, w, r) at hcompared
    rw [Prod.mk.injEq, Prod.mk.injEq] at hcompared
    obtain ⟨hx, hw, hr⟩ := hcompared
    exact .inl ⟨hx.symm, hw.symm, hr.symm⟩

theorem recognised_neighbour (hrun : g.Runs env) (h : e.amount g neighbour onLeft = some amount)
    (hcompared : e.kind.compared g e.operand neighbour = (x, w, r))
    (hd : e.dim < (g.shape e.operand).length) (hrank : (g.shape neighbour).length = (g.shape e.operand).length)
    (hfits : (if onLeft then e.lhs else e.rhs) + amount ≤ coord (g.shape e.operand) e.dim)
    (hrelated : g.Related x w) (hexact : e.kind.Exact (if onLeft then e.lhs else e.rhs)) :
    ∀ c, Within (g.shape neighbour) c → (env neighbour).read c = (env e.operand).read (update c e.dim
      (e.kind.place onLeft (if onLeft then e.lhs else e.rhs) (coord (g.shape e.operand) e.dim) amount + c e.dim)) := by
  obtain ⟨hisOf, hamount⟩ := amount_spec h hcompared
  have hplace : e.kind.place onLeft (if onLeft then e.lhs else e.rhs) (coord (g.shape e.operand) e.dim) amount +
      amount ≤ coord (g.shape e.operand) e.dim := by
    cases e.kind with
    | wrap =>
      cases onLeft with
      | true =>
        rw [Kind.place]
        omega
      | false => exact hfits
    | extend =>
      cases onLeft with
      | true | false =>
        rw [Kind.place]
        omega
  have hstarts : StartsAt (e.kind.along onLeft (if onLeft then e.lhs else e.rhs)) (e.kind.place onLeft
      (if onLeft then e.lhs else e.rhs) (coord (g.shape e.operand) e.dim) amount)
      (coord (g.shape e.operand) e.dim) amount := startsAt_place hfits hexact
  rcases compared_cases hcompared with ⟨rfl, rfl, rfl⟩ | ⟨hop, hop', hshape, hshape', rfl⟩
  · rw [add_zero] at hisOf hamount
    obtain ⟨-, hread⟩ := recognised_of_isOf hrun hisOf hd hrank (by rwa [hamount])
    rw [hamount] at hread
    exact hread hrelated hplace
  · have hcoord : coord (g.shape x) (e.dim + 1) = coord (g.shape e.operand) e.dim := by rw [hshape]; rfl
    obtain ⟨hcoords, hread⟩ := recognised_of_isOf hrun hisOf (by rw [hshape, length_cons]; omega)
      (by rw [hshape, hshape', length_cons, length_cons, hrank]) (by rwa [hcoord, hamount])
    intro c hc
    have hcoords' : ∀ j < (g.shape e.operand).length, j ≠ e.dim →
        coord (g.shape neighbour) j = coord (g.shape e.operand) j := by
      intro j hj hne
      have hat := hcoords (j + 1) (by rw [hshape, length_cons]; omega) (by omega)
      rwa [hshape, hshape'] at hat
    have hamount' : coord (g.shape neighbour) e.dim = amount := by
      rw [← hamount, hshape']
      rfl
    have hfront : Within (g.shape w) (inFront c) := by
      rw [hshape']
      intro j hj
      cases j with
      | zero => exact one_pos
      | succ j => exact hc j (Nat.lt_of_succ_lt_succ hj)
    rw [hcoord, hamount] at hread
    rw [read_outerReshape hrun hop' hshape' hc, hread hrelated hplace _ hfront,
      read_outerReshape hrun hop hshape (within_place hd hrank hcoords' (hamount'.symm ▸ hplace) hc)]
    refine read_congr _ fun j _ => ?_
    cases j with
    | zero => rfl
    | succ j =>
      change update (inFront c) (e.dim + 1) _ (j + 1) = update c e.dim _ j
      rw [update_apply, update_apply]
      exact if_congr Nat.add_right_cancel_iff rfl rfl

end

/-! ### The wider op -/

section

variable {α : Type} {g : Graph} {env : Nat → Tensor α} {kind : Kind} {dim v : Nat} {shape : List Nat}
  {newOperands : List NewOperand}

/-- The operands that an operand of the new concatenation stands for. -/
def NewOperand.old : NewOperand → List Nat
  | value v => [v]
  | widened v _ neighbour onLeft _ => if onLeft then [neighbour, v] else [v, neighbour]

def NewOperand.Valid (g : Graph) (dim : Nat) : NewOperand → Prop
  | value _ => True
  | widened v e neighbour onLeft amount =>
    g.defOp v = some (.edge e) ∧ e.dim = dim ∧ e.amount g neighbour onLeft = some amount

variable {e : Edge} {onLeft : Bool} {operands : List Nat}

theorem lines_widen {amount : Nat} {x w v t : Tensor α} {n : Nat} (hv : e.lower x = some v)
    (ht : (e.widen onLeft amount).lower x = some t) (hn : coord x.shape e.dim = n)
    (hfits : (if onLeft then e.lhs else e.rhs) + amount ≤ n)
    (hexact : amount = 0 ∨ e.kind = .wrap ∨ (if onLeft then e.lhs else e.rhs) = 0)
    (hw : TakenAlong e.dim (fun _ k => k) x
      (part (e.kind.place onLeft (if onLeft then e.lhs else e.rhs) n amount) amount) w)
    (hwfits : FitTogether e.dim v.shape [w]) : Lines e.dim v.shape [t] (if onLeft then [w, v] else [v, w]) := by
  obtain ⟨kind, operand, lhs, rhs, dim⟩ := e
  obtain ⟨-, -, hd, hxv, dims, ss, htaken, hlines, hpositions⟩ := lower_spec hv
  have hdv : dim < v.shape.length := by
    have hlen := congrArg length hxv
    rw [length_set, length_set] at hlen
    rwa [← hlen]
  subst hn
  cases onLeft with
  | true =>
    obtain ⟨-, -, -, hxt, dims', ss', htaken', hlines', hpositions'⟩ := lower_spec ht
    have hlines' := hlines'.of_shape (hxt.symm.trans hxv)
    have hall : Lines dim v.shape (w :: ss) ss' := by
      refine Lines.of_positions (.cons hw htaken) htaken'
        (fitTogether_cons.mpr ⟨hwfits, hlines.fits_right⟩) hlines'.fits_right ?_
      rw [positions_part, hpositions, hpositions']
      exact (positions_left hfits hexact).symm
    have hsplit : Lines dim v.shape [w, v] (w :: ss) := (Lines.refl hwfits).append hdv hlines
    exact hlines'.trans (hall.symm.trans hsplit.symm)
  | false =>
    obtain ⟨-, -, -, hxt, dims', ss', htaken', hlines', hpositions'⟩ := lower_spec ht
    have hlines' := hlines'.of_shape (hxt.symm.trans hxv)
    have hall : Lines dim v.shape (ss ++ [w]) ss' := by
      refine Lines.of_positions (rel_append htaken (.cons hw .nil)) htaken'
        (fitTogether_append.mpr ⟨hlines.fits_right, hwfits⟩) hlines'.fits_right ?_
      rw [hpositions']
      refine Eq.trans ?_ (positions_right hexact).symm
      rw [positions, flatMap_append]
      change positions dims ++ positions [_] = _
      rw [hpositions, positions_part]
      exact congrArg (_ ++ ·) (append_nil _)
    have hsplit : Lines dim v.shape [v, w] (ss ++ [w]) := hlines.append hdv (Lines.refl hwfits)
    exact hlines'.trans (hall.symm.trans hsplit.symm)

theorem exists_widened {neighbour amount : Nat} (hrun : g.Runs env)
    (hvalid : (NewOperand.widened v e neighbour onLeft amount).Valid g dim)
    (hgood : (NewOperand.widened v e neighbour onLeft amount).Good g)
    (hfits : FitTogether dim shape [env neighbour, env v]) :
    ∃ t, (NewOperand.widened v e neighbour onLeft amount).eval env = some t ∧
      Lines dim shape [t] ((NewOperand.widened v e neighbour onLeft amount).old.map env) := by
  obtain ⟨hop, rfl, hamount⟩ := hvalid
  obtain ⟨hle, hrelated, hexact⟩ := hgood
  obtain ⟨x, w, r, hcompared⟩ : ∃ x w r, e.kind.compared g e.operand neighbour = (x, w, r) := ⟨_, _, _, rfl⟩
  have hrelated : g.Related (e.kind.compared g e.operand neighbour).1
    (e.kind.compared g e.operand neighbour).2.1 := hrelated
  rw [hcompared] at hrelated
  have hlower : e.lower (env e.operand) = some (env v) := hrun.eval_eq v _ hop
  obtain ⟨hlhs, hrhs, hd, hxv, -⟩ := lower_spec hlower
  have hshape := hrun.shape_eq e.operand
  have hneighbour := hfits _ mem_cons_self
  have hvshape := hfits _ (mem_cons_of_mem _ mem_cons_self)
  have hranks : (env neighbour).shape.length = (env e.operand).shape.length := by
    have hlen := congrArg length (hneighbour.trans (hvshape.symm.trans hxv.symm))
    rwa [length_set, length_set] at hlen
  obtain ⟨t, ht⟩ : ∃ t, (e.widen onLeft amount).lower (env e.operand) = some t := by
    rw [hshape] at hlhs hrhs
    cases onLeft with
    | true => exact exists_lower e.kind hd (hshape.symm ▸ hle) (hshape.symm ▸ hrhs)
    | false => exact exists_lower e.kind hd (hshape.symm ▸ hlhs) (hshape.symm ▸ hle)
  have hsize : coord (g.shape neighbour) e.dim = amount := by
    obtain ⟨-, hsize⟩ := amount_spec hamount hcompared
    rcases compared_cases hcompared with ⟨-, rfl, rfl⟩ | ⟨-, -, -, hw, rfl⟩
    · exact hsize
    · rwa [hw] at hsize
  have hwfits : FitTogether e.dim (env v).shape [env neighbour] := fun y hy => by
    rw [mem_singleton.mp hy]
    exact hneighbour.trans hvshape.symm
  suffices hlines : Lines e.dim (env v).shape [t]
      ((NewOperand.widened v e neighbour onLeft amount).old.map env) from ⟨t, ht, hlines.of_shape hvshape⟩
  have holds : (NewOperand.widened v e neighbour onLeft amount).old.map env =
      if onLeft then [env neighbour, env v] else [env v, env neighbour] := by
    cases onLeft with
    | true | false => rfl
  rw [holds]
  have hpart : ∀ k, (∀ c, Within (g.shape neighbour) c → (env neighbour).read c =
      (env e.operand).read (update c e.dim (k + c e.dim))) →
        TakenAlong e.dim (fun _ k => k) (env e.operand) (part k amount) (env neighbour) := by
    intro k hread
    refine ⟨by rw [hrun.shape_eq, hsize, size_part], fun c hc => ?_⟩
    rw [taken_across, source_part]
    exact hread c (hrun.shape_eq neighbour ▸ hc)
  have hread : 0 ∈ g.shape neighbour ∨ e.kind.Exact (if onLeft then e.lhs else e.rhs) := by
    refine hexact.imp_right fun h => ?_
    cases hkind : e.kind with
    | wrap | extend =>
      rw [hkind] at h
      exact h
  have hreads : ∀ c, Within (g.shape neighbour) c → (env neighbour).read c =
      (env e.operand).read (update c e.dim (e.kind.place onLeft (if onLeft then e.lhs else e.rhs)
        (coord (g.shape e.operand) e.dim) amount + c e.dim)) := by
    intro c hc
    rcases hread with hzero | hread
    · exact absurd hc (not_within_of_mem_zero hzero)
    · refine recognised_neighbour hrun hamount hcompared (hshape ▸ hd) ?_ hle hrelated hread c hc
      rwa [← hrun.shape_eq, ← hrun.shape_eq]
  by_cases hposition : amount = 0 ∨ e.kind = .wrap ∨ (if onLeft then e.lhs else e.rhs) = 0
  · exact lines_widen hlower ht (by rw [hshape]) hle hposition (hpart _ hreads) hwfits
  · -- an `extend` with a border, next to a value without elements
    rw [not_or, not_or] at hposition
    obtain ⟨hne, hkind, hborder⟩ := hposition
    have hzero : 0 ∈ g.shape neighbour := by
      rcases hread with hzero | hread
      · exact hzero
      · cases hk : e.kind with
        | wrap => exact absurd hk hkind
        | extend =>
          rw [hk] at hread
          exact absurd hread hborder
    obtain ⟨-, -, -, hxt, -⟩ := lower_spec ht
    have hdims : (e.widen onLeft amount).dim = e.dim ∧ (e.widen onLeft amount).lhs +
        (coord (g.shape e.operand) e.dim + (e.widen onLeft amount).rhs) =
          e.lhs + (coord (g.shape e.operand) e.dim + e.rhs) + amount := by
      cases onLeft with
      | true => exact ⟨rfl, add_right_comm ..⟩
      | false => exact ⟨rfl, by change e.lhs + (_ + (e.rhs + amount)) = _; omega⟩
    have hsizet := coord_lower ht
    have hsizev := coord_lower hlower
    rw [hdims.1] at hxt hsizet
    rw [hshape] at hsizet hsizev
    have hvfits : FitTogether e.dim (env v).shape [env v] := fun y hy => by rw [mem_singleton.mp hy]
    have hfits' : FitTogether e.dim (env v).shape
        (if onLeft then [env neighbour, env v] else [env v, env neighbour]) := by
      cases onLeft with
      | true => exact fitTogether_cons.mpr ⟨hwfits, hvfits⟩
      | false => exact fitTogether_cons.mpr ⟨hvfits, hwfits⟩
    refine Lines.of_empty (fun y hy => ?_) hfits' ?_ ?_
    · rw [mem_singleton.mp hy]
      exact hxt.symm.trans hxv
    · have htotal : total e.dim (if onLeft then [env neighbour, env v] else [env v, env neighbour]) =
          coord (env v).shape e.dim + amount := by
        cases onLeft with
        | true =>
          change total e.dim [env neighbour, env v] = _
          rw [total_cons, total_cons, total_nil, hrun.shape_eq neighbour, hsize]
          omega
        | false =>
          change total e.dim [env v, env neighbour] = _
          rw [total_cons, total_cons, total_nil, hrun.shape_eq neighbour, hsize]
          omega
      rw [htotal, total_cons, total_nil, hsizet, hsizev, hdims.2]
      omega
    · obtain ⟨j, hj, hjzero⟩ := getElem_of_mem hzero
      have hjd : j ≠ e.dim := by
        rintro rfl
        rw [← coord_eq_getElem hj] at hjzero
        exact hne (hsize.symm.trans hjzero)
      have hset := hneighbour.trans hvshape.symm
      rw [hrun.shape_eq neighbour] at hset
      have hmem : (0 : Nat) ∈ (g.shape neighbour).set e.dim 1 :=
        mem_iff_getElem.mpr ⟨j, by rwa [length_set], by rw [getElem_set_ne (Ne.symm hjd), hjzero]⟩
      have hones := congrArg (set · e.dim 1) hset
      simp only [set_set] at hones
      rwa [hones] at hmem

/-! ### The loop over the operands -/

theorem old_push (n : NewOperand) (newOperands : List NewOperand) (operands : List Nat) :
    (n :: newOperands).reverse.flatMap NewOperand.old ++ operands =
      newOperands.reverse.flatMap NewOperand.old ++ (n.old ++ operands) := by
  rw [reverse_cons, flatMap_append, append_assoc, flatMap_singleton]

theorem dim_of_match (h : ¬(e.kind ≠ kind ∨ e.dim ≠ dim)) : e.dim = dim :=
  not_not.mp (not_or.mp h).2

/-- The operands that a list of new operands stands for are the operands, in order. -/
theorem widen_spec (kind : Kind) (dim : Nat) (operands : List Nat) (newOperands : List NewOperand)
    (h : ∀ n ∈ newOperands, n.Valid g dim) :
    (∀ n ∈ (widen g kind dim newOperands operands).1, n.Valid g dim) ∧
      (widen g kind dim newOperands operands).1.flatMap NewOperand.old =
        newOperands.reverse.flatMap NewOperand.old ++ operands := by
  fun_induction widen g kind dim newOperands operands with
  | case1 newOperands => exact ⟨fun n hn => h n (mem_reverse.mp hn), (append_nil _).symm⟩
  | case2 newOperands v operands e hop hother ih =>
    obtain ⟨hvalid, hold⟩ := ih (forall_mem_cons.mpr ⟨trivial, h⟩)
    exact ⟨hvalid, hold.trans (old_push _ _ _)⟩
  | case3 newOperands v operands e hop hmatch onLeft prev amount honLeft ih =>
    cases newOperands with
    | nil => exact absurd honLeft (some_ne_none _).symm
    | cons n newOperands =>
      cases n with
      | widened v' e' neighbour' onLeft' amount' => exact absurd honLeft (some_ne_none _).symm
      | value v' =>
        obtain ⟨amount', hamount, heq⟩ := map_eq_some_iff.mp honLeft
        cases heq
        obtain ⟨-, h⟩ := forall_mem_cons.mp h
        obtain ⟨hvalid, hold⟩ := ih (forall_mem_cons.mpr ⟨⟨hop, dim_of_match hmatch, hamount⟩, h⟩)
        refine ⟨hvalid, hold.trans ?_⟩
        rw [old_push, old_push]
        rfl
  | case4 newOperands v e hop hmatch onLeft honLeft amount next operands onRight honRight ih =>
    obtain ⟨hvalid, hold⟩ := ih (forall_mem_cons.mpr ⟨⟨hop, dim_of_match hmatch, honRight⟩, h⟩)
    exact ⟨hvalid, hold.trans (old_push _ _ _)⟩
  | case5 newOperands v operands e hop hmatch onLeft onRight honLeft hnone ih
  | case6 newOperands v operands hop ih =>
    obtain ⟨hvalid, hold⟩ := ih (forall_mem_cons.mpr ⟨trivial, h⟩)
    exact ⟨hvalid, hold.trans (old_push _ _ _)⟩

theorem widenConcat_spec (h : widenConcat g kind dim operands = some newOperands) :
    (∀ n ∈ newOperands, n.Valid g dim) ∧ newOperands.flatMap NewOperand.old = operands := by
  obtain ⟨-, heq⟩ := ite_none_right_eq_some.mp h
  obtain ⟨hvalid, hold⟩ := widen_spec (g := g) kind dim operands [] nofun
  rw [← some.inj heq]
  exact ⟨hvalid, hold⟩

theorem lines_newOperands (hrun : g.Runs env) (hd : dim < shape.length) (hvalid : ∀ n ∈ newOperands, n.Valid g dim)
    (hgood : ∀ n ∈ newOperands, n.Good g)
    (hfits : FitTogether dim shape ((newOperands.flatMap NewOperand.old).map env)) :
    ∃ ts, allSome (newOperands.map (NewOperand.eval env)) = some ts ∧
      Lines dim shape ts ((newOperands.flatMap NewOperand.old).map env) := by
  induction newOperands with
  | nil => exact ⟨[], rfl, Lines.refl nofun⟩
  | cons n newOperands ih =>
    obtain ⟨hn, hvalid⟩ := forall_mem_cons.mp hvalid
    obtain ⟨hgn, hgood⟩ := forall_mem_cons.mp hgood
    rw [flatMap_cons, map_append] at hfits
    obtain ⟨hfitsn, hfits⟩ := fitTogether_append.mp hfits
    obtain ⟨ts, hts, hlines⟩ := ih hvalid hgood hfits
    obtain ⟨t, ht, hlinest⟩ : ∃ t, n.eval env = some t ∧ Lines dim shape [t] (n.old.map env) := by
      cases n with
      | value v => exact ⟨env v, rfl, Lines.refl hfitsn⟩
      | widened v e neighbour onLeft amount =>
        refine exists_widened hrun hn hgn fun y hy => hfitsn y ?_
        cases onLeft with
        | true => exact hy
        | false =>
          rcases mem_cons.mp hy with rfl | hy
          · exact mem_cons_of_mem _ mem_cons_self
          · rw [mem_singleton.mp hy]
            exact mem_cons_self
    refine ⟨t :: ts, ?_, ?_⟩
    · rw [map_cons, ht, allSome, hts, map_some]
    · rw [flatMap_cons, map_append]
      exact hlinest.append hd hlines

theorem preserves_of_good (h : widenConcat g kind dim operands = some newOperands)
    (hgood : ∀ n ∈ newOperands, n.Good g) : Preserves α g dim operands newOperands := by
  obtain ⟨hvalid, hold⟩ := widenConcat_spec h
  intro env hrun y hy
  obtain ⟨hd, hne, hfits, -⟩ := pieces_of_concatenate hy
  rw [← hold] at hfits
  obtain ⟨ts, hts, hlines⟩ := lines_newOperands hrun hd hvalid hgood hfits
  rw [hold] at hlines
  have hnil : ts ≠ [] := by
    rintro rfl
    have hnew : newOperands = [] := by
      have hlen := congrArg length (allSome_eq_some_iff.mp hts)
      rw [length_map, length_map] at hlen
      exact eq_nil_of_length_eq_zero hlen
    rw [hnew] at hold
    exact hne (by rw [← hold]; rfl)
  obtain ⟨z, hz, hsame⟩ := Lines.concatenate hlines.symm hnil hy
  exact ⟨z, by rw [newConcat, hts, bind_some, hz], hsame⟩

end

/-! ### Rows of four -/

/-- The row `x` is value 0 and the row `y` is value 1. -/
def rows : Graph where
  defOp
    | 2 => some (.slice ⟨1, [⟨2, 4, 1⟩]⟩)
    | 3 => some (.edge ⟨.wrap, 0, 0, 1, 0⟩)
    | 4 => some (.slice ⟨0, [⟨1, 3, 1⟩]⟩)
    | 5 => some (.edge ⟨.wrap, 0, 1, 0, 0⟩)
    | 6 => some (.slice ⟨0, [⟨0, 1, 1⟩]⟩)
    | 7 => some (.edge ⟨.extend, 0, 1, 0, 0⟩)
    | _ => none
  shape
    | 0 | 1 => [4]
    | 2 | 4 => [2]
    | 3 | 5 | 7 => [5]
    | 6 => [1]
    | _ => []
  lt v op hop := by
    split at hop
    · cases hop
      decide
    · cases hop
      decide
    · cases hop
      decide
    · cases hop
      decide
    · cases hop
      decide
    · cases hop
      decide
    · cases hop
  typed v op hop α env henv := by
    have hslice : ∀ (o : Nat) (d : SliceDim) (m : Nat), (env o).shape = [4] → d.Ok 4 → d.size = m →
        ∃ t, slice [d] (env o) = some t ∧ t.shape = [m] := by
      rintro o d m ho hok rfl
      exact ⟨_, if_pos (ho.symm ▸ .cons hok .nil), rfl⟩
    have hedge : ∀ (kind : Kind) (lhs rhs : Nat), (env 0).shape = [4] → lhs + rhs = 1 →
        ∃ t, kind.lower 0 lhs rhs (env 0) = some t ∧ t.shape = [5] := by
      intro kind lhs rhs h0 hsum
      have hcoord : coord (env 0).shape 0 = 4 := by rw [h0]; rfl
      obtain ⟨t, ht⟩ : ∃ t, kind.lower 0 lhs rhs (env 0) = some t :=
        exists_lower kind (by rw [h0]; exact Nat.one_pos) (by omega) (by omega)
      refine ⟨t, ht, ?_⟩
      rw [shape_lower ht, h0]
      exact congrArg (fun n => [n]) (by change lhs + (4 + rhs) = 5; omega)
    split at hop
    · cases hop
      exact hslice 1 _ 2 (henv 1 mem_cons_self) (by decide) (by decide)
    · cases hop
      exact hedge .wrap 0 1 (henv 0 mem_cons_self) rfl
    · cases hop
      exact hslice 0 _ 2 (henv 0 mem_cons_self) (by decide) (by decide)
    · cases hop
      exact hedge .wrap 1 0 (henv 0 mem_cons_self) rfl
    · cases hop
      exact hslice 0 _ 1 (henv 0 mem_cons_self) (by decide) (by decide)
    · cases hop
      exact hedge .extend 1 0 (henv 0 mem_cons_self) rfl
    · cases hop

/-- Where every border that is continued is of the operand, is told and stays within it, widening the ops of a
concatenation preserves its elements. -/
theorem widen_preserves {α : Type} {g : Graph} {kind : Kind} {dim : Nat} {operands : List Nat}
    {newOperands : List NewOperand} (h : widenConcat g kind dim operands = some newOperands)
    (hgood : ∀ n ∈ newOperands, n.Good g) : Preserves α g dim operands newOperands := preserves_of_good h hgood

theorem widen_preserves_rows : WidenWrap rows 0 [4, 5] = some [.widened 5 ⟨.wrap, 0, 1, 0, 0⟩ 4 true 2] ∧
    Preserves Int rows 0 [4, 5] [.widened 5 ⟨.wrap, 0, 1, 0, 0⟩ 4 true 2] := by
  have hfires : widenConcat rows .wrap 0 [4, 5] = some [.widened 5 ⟨.wrap, 0, 1, 0, 0⟩ 4 true 2] := by
    simp only [widenConcat, widen, rows]
    rfl
  refine ⟨hfires, widen_preserves hfires ?_⟩
  rw [forall_mem_singleton]
  exact ⟨by decide, .same rfl rfl, .inr (by decide)⟩

def rowX : Tensor Int := ⟨[4], fun idx => coord idx 0⟩

def rowY : Tensor Int := ⟨[4], fun idx => 10 + coord idx 0⟩

def counting : Nat → Tensor Int
  | 0 => rowX
  | 1 => rowY
  | 2 => (slice [⟨2, 4, 1⟩] rowY).getD (splat [] 0)
  | 3 => (lowerWrap 0 0 1 rowX).getD (splat [] 0)
  | 4 => (slice [⟨1, 3, 1⟩] rowX).getD (splat [] 0)
  | 5 => (lowerWrap 0 1 0 rowX).getD (splat [] 0)
  | 6 => (slice [⟨0, 1, 1⟩] rowX).getD (splat [] 0)
  | 7 => (lowerExtend 0 1 0 rowX).getD (splat [] 0)
  | _ => splat [] 0

theorem runs_counting : rows.Runs counting := by
  refine ⟨fun v => ?_, fun v op hop => ?_⟩
  · match v with
    | 0 | 1 | 2 | 3 | 4 | 5 | 6 | 7 => rfl
    | v + 8 => rfl
  · match v with
    | 0 | 1 => cases hop
    | 2 | 3 | 4 | 5 | 6 | 7 =>
      cases hop
      rfl
    | v + 8 => cases hop

/-- The end of the row `y` is taken for a part of the row `x`, and an `extend` by two for one by one beside the
first element. -/
theorem not_widen_preserves : (WidenWrap rows 0 [2, 3] = some [.widened 3 ⟨.wrap, 0, 0, 1, 0⟩ 2 true 2] ∧
      ¬Preserves Int rows 0 [2, 3] [.widened 3 ⟨.wrap, 0, 0, 1, 0⟩ 2 true 2]) ∧
    (WidenExtend rows 0 [6, 7] = some [.widened 7 ⟨.extend, 0, 1, 0, 0⟩ 6 true 1] ∧
      ¬Preserves Int rows 0 [6, 7] [.widened 7 ⟨.extend, 0, 1, 0, 0⟩ 6 true 1]) := by
  refine ⟨⟨?_, fun h => ?_⟩, ?_, fun h => ?_⟩
  · simp only [WidenWrap, widenConcat, widen, rows]
    rfl
  · obtain ⟨z, hz, hsame⟩ := h counting runs_counting _ rfl
    cases hz
    exact absurd (hsame.get_eq [0] (by decide)) (by decide)
  · simp only [WidenExtend, widenConcat, widen, rows]
    rfl
  · obtain ⟨z, hz, hsame⟩ := h counting runs_counting _ rfl
    cases hz
    exact absurd (hsame.get_eq [1] (by decide)) (by decide)

end EnzymeJax.Widening
