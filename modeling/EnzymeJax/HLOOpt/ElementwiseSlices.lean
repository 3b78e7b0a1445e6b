import EnzymeJax.HLOOpt.DynamicSlices
import EnzymeJax.Library.Elementwise

/-!
# Slices of elementwise ops

Where all users of an elementwise op are slices, the op is applied to slices of its operands: to its only user, or
to one slice that spans all users. The same is done for `dynamic_slice`, with a start at run time that all share.
-/

namespace EnzymeJax.ElementwiseSlices

open Tensor Option
open List hiding allSome

/-! ### Slices -/

def addUser (common user : SliceDim) : SliceDim :=
  let stride := if user.stride ≠ common.stride then 1 else common.stride
  let stride :=
    if user.start ≠ common.start ∧ (user.start - common.start).tmod stride ≠ 0 then 1 else stride
  ⟨min user.start common.start, max user.limit common.limit, stride⟩

def commonSlice (op : List SliceDim) (users : List (List SliceDim)) : List SliceDim :=
  users.foldl (List.zipWith addUser) op

def newUser (user common : SliceDim) : SliceDim :=
  if user.stride = common.stride then
    ⟨user.start - common.start, (user.limit - common.start).tdiv user.stride, 1⟩
  else ⟨user.start - common.start, user.limit - common.start, user.stride⟩

inductive NewOps
  | single (slice : List SliceDim)
  | common (slice : List SliceDim) (sizes : List Nat) (users : List (List SliceDim))

/-- The users of the elementwise op are slices, or other ops. -/
def SliceElementwise (shape : List Nat) (op : List SliceDim) (users : List (Option (List SliceDim))) :
    Option NewOps :=
  if users.length = 1 then some (.single op)
  else do
    let todo ← allSome users
    let common := commonSlice op todo
    let changed := (List.zip common shape).any fun p =>
      decide (p.1.start ≠ 0 ∨ p.1.limit < p.2 ∨ p.1.stride ≠ 1)
    if changed then
      some (.common common (common.map fun d => ((d.limit - d.start).tdiv d.stride).toNat)
        (todo.map fun user => List.zipWith newUser user common))
    else none

section

variable {α β : Type} (f : List α → β) (xs : List (Tensor α))

/-- The users of the op on the operands. -/
def original (shape : List Nat) (users : List (List SliceDim)) : Option (List (Tensor β)) :=
  (elementwise f shape xs).bind fun y => allSome (users.map (slice · y))

def NewOps.eval : NewOps → Option (List (Tensor β))
  | .single op => do
    let ops ← allSome (xs.map (slice op))
    let nex ← elementwise f (op.map SliceDim.size) ops
    return [nex]
  | .common ds sizes users => do
    let ops ← allSome (xs.map (slice ds))
    let nex ← elementwise f sizes ops
    allSome (users.map (slice · nex))

/-- Whatever the operands are, each user gets what it was. -/
def Preserves (shape : List Nat) (users : List (List SliceDim)) (newOps : NewOps) : Prop :=
  ∀ (xs : List (Tensor α)) (rs : List (Tensor β)), original f xs shape users = some rs →
    ∃ rs', newOps.eval f xs = some rs' ∧ List.Forall₂ Same rs' rs

end

/-! ### The common slice -/

def dimAt (ds : List SliceDim) (d : Nat) : SliceDim := ds.getD d ⟨0, 0, 1⟩

/-- Where all users have one stride and are in step, they start at one place and stop on the grid. -/
def OnGrid (users : List (List SliceDim)) (d : Nat) : Prop :=
  ∀ k : Int, k ≠ 1 → (∀ u ∈ users, (dimAt u d).stride = k) →
    (∀ u ∈ users, ∀ v ∈ users, k ∣ (dimAt u d).start - (dimAt v d).start) →
      ∀ u ∈ users, (∀ v ∈ users, (dimAt u d).start = (dimAt v d).start) ∧ k ∣ (dimAt u d).limit - (dimAt u d).start

/-- The common slice spans all users, from the first start to the last limit, and its stride is that of all of them,
or one. -/
structure Common (c : SliceDim) (users : List SliceDim) : Prop where
  start_le : ∀ u ∈ users, c.start ≤ u.start
  limit_le : ∀ u ∈ users, u.limit ≤ c.limit
  start_mem : ∃ u ∈ users, c.start = u.start
  limit_mem : ∃ u ∈ users, c.limit = u.limit
  stride_eq : c.stride = 1 ∨ ∀ u ∈ users, u.stride = c.stride ∧ c.stride ∣ u.start - c.start
  stride_of_all : ∀ k, (∀ u ∈ users, u.stride = k) → (∀ u ∈ users, ∀ v ∈ users, k ∣ u.start - v.start) → c.stride = k

variable {d n : Nat}

section

variable {c u : SliceDim} {users users' : List SliceDim}

theorem common_self (u : SliceDim) : Common u [u] := by
  have hself : ∀ v ∈ [u], v = u := fun v hv => mem_singleton.mp hv
  refine ⟨fun v hv => (hself v hv ▸ le_rfl), fun v hv => (hself v hv ▸ le_rfl),
    ⟨u, mem_singleton_self u, rfl⟩, ⟨u, mem_singleton_self u, rfl⟩, .inr fun v hv => ?_,
    fun k hk _ => hk u (mem_singleton_self u)⟩
  rw [hself v hv, sub_self]
  exact ⟨rfl, dvd_zero _⟩

theorem Common.of_mem_iff (h : Common c users) (hmem : ∀ u, u ∈ users ↔ u ∈ users') : Common c users' := by
  obtain ⟨u, hu, hstart⟩ := h.start_mem
  obtain ⟨v, hv, hlimit⟩ := h.limit_mem
  refine ⟨fun w hw => h.start_le w ((hmem w).mpr hw), fun w hw => h.limit_le w ((hmem w).mpr hw),
    ⟨u, (hmem u).mp hu, hstart⟩, ⟨v, (hmem v).mp hv, hlimit⟩,
    h.stride_eq.imp_right fun hall w hw => hall w ((hmem w).mpr hw), fun k hk hdvd => ?_⟩
  exact h.stride_of_all k (fun w hw => hk w ((hmem w).mp hw)) fun w hw w' hw' =>
    hdvd w ((hmem w).mp hw) w' ((hmem w').mp hw')

theorem stride_addUser (c u : SliceDim) : (addUser c u).stride = 1 ∨
    u.stride = c.stride ∧ c.stride ∣ u.start - c.start ∧ (addUser c u).stride = c.stride := by
  rw [addUser]
  dsimp only
  by_cases hstride : u.stride = c.stride
  · rw [if_neg (not_not.mpr hstride)]
    split
    · exact .inl rfl
    · rename_i hphase
      refine .inr ⟨hstride, ?_, rfl⟩
      by_cases hstart : u.start = c.start
      · rw [hstart, sub_self]
        exact dvd_zero _
      · exact Int.dvd_of_tmod_eq_zero (not_not.mp (not_and.mp hphase hstart))
  · rw [if_pos hstride, ite_self]
    exact .inl rfl

theorem stride_addUser_of_dvd (hstride : u.stride = c.stride) (hdvd : c.stride ∣ u.start - c.start) :
    (addUser c u).stride = c.stride := by
  rw [addUser]
  dsimp only
  rw [if_neg (not_not.mpr hstride), if_neg]
  exact fun h => h.2 (Int.tmod_eq_zero_of_dvd hdvd)

theorem Common.addUser (h : Common c users) (u : SliceDim) : Common (addUser c u) (u :: users) := by
  obtain ⟨v, hv, hstart⟩ := h.start_mem
  obtain ⟨w, hw, hlimit⟩ := h.limit_mem
  have hstart' : (ElementwiseSlices.addUser c u).start = min u.start c.start := rfl
  have hlimit' : (ElementwiseSlices.addUser c u).limit = max u.limit c.limit := rfl
  refine ⟨forall_mem_cons.mpr ⟨min_le_left _ _, fun w hw => (min_le_right _ _).trans (h.start_le w hw)⟩,
    forall_mem_cons.mpr ⟨le_max_left _ _, fun w hw => (h.limit_le w hw).trans (le_max_right _ _)⟩,
    ?_, ?_, ?_, fun k hk hdvd => ?_⟩
  · rw [hstart']
    rcases min_choice u.start c.start with hmin | hmin
    · exact ⟨u, mem_cons_self, hmin⟩
    · exact ⟨v, mem_cons_of_mem _ hv, hmin.trans hstart⟩
  · rw [hlimit']
    rcases max_choice u.limit c.limit with hmax | hmax
    · exact ⟨u, mem_cons_self, hmax⟩
    · exact ⟨w, mem_cons_of_mem _ hw, hmax.trans hlimit⟩
  · rcases stride_addUser c u with hone | ⟨hstride, hdvd, heq⟩
    · exact .inl hone
    rcases h.stride_eq with hone | hall
    · exact .inl (heq.trans hone)
    -- all starts are in step with the one that was first before
    refine .inr fun w hw => ?_
    have hw' : w.stride = c.stride ∧ c.stride ∣ w.start - c.start := by
      rcases mem_cons.mp hw with rfl | hw
      · exact ⟨hstride, hdvd⟩
      · exact hall w hw
    rw [heq, hstart']
    refine ⟨hw'.1, ?_⟩
    rcases min_choice u.start c.start with hmin | hmin
    · rw [hmin, ← sub_sub_sub_cancel_right w.start u.start c.start]
      exact Int.dvd_sub hw'.2 hdvd
    · rw [hmin]
      exact hw'.2
  · have hc := h.stride_of_all k (fun w hw => hk w (mem_cons_of_mem _ hw)) fun w hw w' hw' =>
      hdvd w (mem_cons_of_mem _ hw) w' (mem_cons_of_mem _ hw')
    rw [stride_addUser_of_dvd ((hk u mem_cons_self).trans hc.symm), hc]
    rw [hc, hstart]
    exact hdvd u mem_cons_self v (mem_cons_of_mem _ hv)

theorem common_foldl (h : Common c users) (us : List SliceDim) :
    Common (us.foldl ElementwiseSlices.addUser c) (us.reverse ++ users) := by
  induction us generalizing c users with
  | nil => exact h
  | cons u us ih =>
    rw [foldl_cons, reverse_cons, append_assoc, singleton_append]
    exact ih (h.addUser u)

variable {op : List SliceDim} {us : List (List SliceDim)}

theorem length_commonSlice (hlen : ∀ u ∈ us, u.length = op.length) : (commonSlice op us).length = op.length := by
  induction us generalizing op with
  | nil => rfl
  | cons u us ih =>
    have hzip : (zipWith ElementwiseSlices.addUser op u).length = op.length := by
      rw [length_zipWith, hlen u mem_cons_self, min_self]
    rw [commonSlice, foldl_cons]
    exact (ih fun u' hu' => (hlen u' (mem_cons_of_mem _ hu')).trans hzip.symm).trans hzip

theorem dimAt_zipWith (g : SliceDim → SliceDim → SliceDim) {u c : List SliceDim} (hlen : u.length = c.length)
    (hd : d < u.length) : dimAt (zipWith g u c) d = g (dimAt u d) (dimAt c d) := by
  rw [dimAt, dimAt, dimAt, getD_eq_getElem _ _ (by rw [length_zipWith]; omega),
    getElem_zipWith, getD_eq_getElem _ _ hd, getD_eq_getElem _ _ (hlen ▸ hd)]

theorem dimAt_commonSlice (hd : d < op.length) (hlen : ∀ u ∈ us, u.length = op.length) :
    dimAt (commonSlice op us) d = (us.map (dimAt · d)).foldl ElementwiseSlices.addUser (dimAt op d) := by
  induction us generalizing op with
  | nil => rfl
  | cons u us ih =>
    have hu := hlen u mem_cons_self
    have hzip : (zipWith ElementwiseSlices.addUser op u).length = op.length := by
      rw [length_zipWith, hu, min_self]
    have htail := ih (hzip.symm ▸ hd) fun u' hu' => (hlen u' (mem_cons_of_mem _ hu')).trans hzip.symm
    rw [commonSlice, foldl_cons, map_cons, foldl_cons, ← dimAt_zipWith ElementwiseSlices.addUser hu.symm hd]
    exact htail

theorem common_commonSlice (hop : op ∈ us) (hd : d < op.length) (hlen : ∀ u ∈ us, u.length = op.length) :
    Common (dimAt (commonSlice op us) d) (us.map (dimAt · d)) := by
  rw [dimAt_commonSlice hd hlen]
  refine (common_foldl (common_self (dimAt op d)) (us.map (dimAt · d))).of_mem_iff fun u => ?_
  rw [mem_append, mem_reverse, mem_singleton]
  refine ⟨fun h => h.elim id ?_, .inl⟩
  rintro rfl
  exact mem_map_of_mem hop

/-! ### One dimension of a user -/

theorem newUser_of_unit (hc : c.stride = 1) :
    newUser u c = ⟨u.start - c.start, u.limit - c.start, u.stride⟩ := by
  rw [newUser]
  split
  · rename_i hu
    rw [hu, hc, Int.tdiv_one]
  · rfl

theorem size_of_stride_dvd (hk : 0 < c.stride) (hdvd : c.stride ∣ c.limit - c.start) :
    c.size = ((c.limit - c.start).tdiv c.stride).toNat := by
  obtain ⟨q, hq⟩ := hdvd
  rw [SliceDim.size, hq, Int.mul_tdiv_cancel_left _ hk.ne', add_sub_assoc, Int.add_comm,
    Int.add_mul_ediv_left _ _ hk.ne', Int.ediv_eq_zero_of_lt (by omega) (by omega), zero_add]

theorem newUser_unit (hc : c.stride = 1) (hok : c.Ok n) (hu : u.Ok n) (hstart : c.start ≤ u.start)
    (hlimit : u.limit ≤ c.limit) : (newUser u c).Ok c.size ∧ (newUser u c).size = u.size ∧
      ∀ k, c.source ((newUser u c).source k) = u.source k := by
  obtain ⟨h₀, hle, -, -⟩ := hok
  obtain ⟨-, hule, -, hk⟩ := hu
  have hsize : (c.size : Int) = c.limit - c.start := by
    rw [SliceDim.size, hc]
    omega
  rw [newUser_of_unit hc]
  refine ⟨⟨by dsimp only; omega, by dsimp only; omega, by dsimp only; omega, hk⟩, ?_, fun k => ?_⟩
  · rw [SliceDim.size, SliceDim.size]
    dsimp only
    rw [sub_sub_sub_cancel_right]
  · rw [SliceDim.source, SliceDim.source, SliceDim.source, hc]
    have hnonneg : 0 ≤ (k : Int) * u.stride := mul_nonneg (Int.natCast_nonneg k) hk.le
    dsimp only
    rw [Int.toNat_of_nonneg (by omega)]
    congr 1
    ring

theorem newUser_grid (hok : c.Ok n) (hu : u.Ok n) (hstart : u.start = c.start) (hstride : u.stride = c.stride)
    (hdvd : c.stride ∣ u.limit - u.start) (hdvd' : c.stride ∣ c.limit - c.start) (hlimit : u.limit ≤ c.limit) :
    (newUser u c).Ok c.size ∧ (newUser u c).size = u.size ∧
      ∀ k, c.source ((newUser u c).source k) = u.source k := by
  obtain ⟨h₀, hle, -, hk⟩ := hok
  obtain ⟨-, hule, -, -⟩ := hu
  have hsize := size_of_stride_dvd hk hdvd'
  have husize := size_of_stride_dvd (hstride.symm ▸ hk) (hstride.symm ▸ hdvd)
  have hmono : (u.limit - u.start).tdiv c.stride ≤ (c.limit - c.start).tdiv c.stride := by
    rw [Int.tdiv_eq_ediv_of_nonneg (by omega), Int.tdiv_eq_ediv_of_nonneg (by omega)]
    exact Int.ediv_le_ediv hk (by omega)
  have hnonneg : 0 ≤ (u.limit - u.start).tdiv c.stride := Int.tdiv_nonneg (by omega) hk.le
  rw [newUser, if_pos hstride, hstart, sub_self, hstride, ← hstart]
  refine ⟨⟨le_rfl, hnonneg, ?_, Int.one_pos⟩, ?_, fun k => ?_⟩
  · dsimp only
    omega
  · rw [husize, SliceDim.size, hstride]
    dsimp only
    rw [sub_zero, add_sub_cancel_right, Int.ediv_one]
  · rw [SliceDim.source, SliceDim.source, SliceDim.source, hstart, hstride]
    dsimp only
    rw [mul_one, zero_add, Int.toNat_natCast]

theorem start_eq_of_size_eq (hk : 1 < c.stride) (hstride : u.stride = c.stride) (hdvd : c.stride ∣ u.start - c.start)
    (hstart : c.start ≤ u.start) (hule : u.start ≤ u.limit) (hle : (newUser u c).start ≤ (newUser u c).limit)
    (hsize : (newUser u c).size = u.size) : u.start = c.start ∧ c.stride ∣ u.limit - u.start := by
  obtain ⟨q, hq⟩ := hdvd
  rw [newUser, if_pos hstride] at hle hsize
  dsimp only at hle
  generalize hL : u.limit - u.start = L at *
  have hlimit : u.limit - c.start = L + c.stride * q := by omega
  have hdiv : (u.limit - c.start).tdiv u.stride = L / c.stride + q := by
    rw [Int.tdiv_eq_ediv_of_nonneg (by omega), hstride, hlimit, Int.add_mul_ediv_left _ _ (by omega)]
  rw [SliceDim.size, SliceDim.size, hdiv, hL, hstride, hq] at hsize
  rw [hdiv, hq] at hle
  dsimp only at hsize
  rw [add_sub_cancel_right, Int.ediv_one] at hsize
  have hL₀ : 0 ≤ L := by omega
  -- rounded down on the left and up on the right
  have hdown : 0 ≤ L / c.stride := Int.ediv_nonneg hL₀ (by omega)
  have hround : L / c.stride ≤ (L + c.stride - 1) / c.stride := Int.ediv_le_ediv (by omega) (by omega)
  have hq₀ : 0 ≤ q := by
    by_contra hneg
    have := Int.mul_neg_of_pos_of_neg (by omega : 0 < c.stride) (not_le.mp hneg)
    omega
  have hmul : 2 * q ≤ c.stride * q := mul_le_mul_of_nonneg_right (by omega) hq₀
  obtain rfl : q = 0 := by omega
  have hup : (L + c.stride - 1) / c.stride = L / c.stride := by
    rw [mul_zero, sub_zero, add_zero] at hsize
    omega
  refine ⟨by omega, ?_⟩
  have hlow := Int.ediv_mul_le L (by omega : c.stride ≠ 0)
  have hhigh := Int.lt_ediv_add_one_mul_self (L + c.stride - 1) (by omega : 0 < c.stride)
  rw [hup, add_mul, one_mul] at hhigh
  exact ⟨L / c.stride, by rw [mul_comm]; omega⟩

end

/-! ### What the users get -/

section

variable {α β : Type} {f : List α → β} {shape : List Nat} {ds op : List SliceDim} {x t : Tensor α}
  {xs : List (Tensor α)} {y : Tensor β} {rs : List (Tensor β)} {users : List (List SliceDim)}

theorem gathers_dims (h : slice ds x = some t) : ds.length = x.shape.length ∧
    (∀ d < x.shape.length, (dimAt ds d).Ok (coord x.shape d)) ∧
      t.shape = ds.map SliceDim.size ∧ Gathers (ds.map SliceDim.size) (fun d k => (dimAt ds d).source k) x t := by
  obtain ⟨hok, hgathers⟩ := gathers_slice h
  have hlen := hok.length_eq
  refine ⟨hlen, fun d hd => ?_, hgathers.shape_eq, hgathers.congr fun d hd k _ => ?_⟩
  · rw [dimAt, getD_eq_getElem _ _ (hlen.symm ▸ hd), coord_eq_getElem hd]
    exact (forall₂_iff_get.mp hok).2 d (hlen.symm ▸ hd) hd
  · rw [length_map] at hd
    rw [sliceSource, dimAt, getElem?_eq_getElem hd, getD_eq_getElem _ _ hd]
    rfl

theorem exists_slice (hlen : ds.length = x.shape.length)
    (hok : ∀ d < x.shape.length, (dimAt ds d).Ok (coord x.shape d)) : ∃ t, slice ds x = some t := by
  refine ⟨_, if_pos (forall₂_iff_get.mpr ⟨hlen, fun d hd hd' => ?_⟩)⟩
  have hat := hok d hd'
  rwa [dimAt, getD_eq_getElem _ _ hd, coord_eq_getElem hd'] at hat

theorem exists_slices (hshape : ∀ x ∈ xs, x.shape = shape) (hlen : ds.length = shape.length)
    (hok : ∀ d < shape.length, (dimAt ds d).Ok (coord shape d)) :
    ∃ ops, allSome (xs.map (slice ds)) = some ops ∧
      Forall₂ (Gathers (ds.map SliceDim.size) fun d k => (dimAt ds d).source k) xs ops := by
  obtain ⟨ops, hops⟩ := exists_allSome_iff.mpr (show ∀ t ∈ xs.map (slice ds), ∃ b, t = some b from by
    intro t ht
    obtain ⟨x, hx, rfl⟩ := mem_map.mp ht
    exact exists_slice (hshape x hx ▸ hlen) (hshape x hx ▸ hok))
  exact ⟨ops, hops, (allSome_map_iff.mp hops).imp fun x t ht => (gathers_dims ht).2.2.2⟩

theorem coord_map_size (hd : d < ds.length) : coord (ds.map SliceDim.size) d = (dimAt ds d).size := by
  rw [coord_map _ _ hd, dimAt, getD_eq_getElem _ _ hd]

theorem eval_users (h : original f xs shape users = some rs) : ∃ y, elementwise f shape xs = some y ∧
    y.shape = shape ∧ Forall₂ (fun u r => slice u y = some r) users rs ∧
      ∀ u ∈ users, u.length = shape.length ∧ ∀ d < shape.length, (dimAt u d).Ok (coord shape d) := by
  obtain ⟨y, hy, hrs⟩ := bind_eq_some_iff.mp h
  obtain ⟨-, hyeq⟩ := eq_of_elementwise hy
  have hshape : y.shape = shape := by rw [hyeq]
  have hall := allSome_map_iff.mp hrs
  refine ⟨y, hy, hshape, hall, fun u hu => ?_⟩
  obtain ⟨i, hi, rfl⟩ := getElem_of_mem hu
  obtain ⟨hlen, hok, -⟩ := gathers_dims ((forall₂_iff_get.mp hall).2 i hi (hall.length_eq ▸ hi))
  exact ⟨hlen.trans (congrArg _ hshape), hshape ▸ hok⟩

theorem preserved_single (h : original f xs shape [op] = some rs) :
    ∃ rs', (NewOps.single op).eval f xs = some rs' ∧ Forall₂ Same rs' rs := by
  obtain ⟨y, hy, -, hall, hdims⟩ := eval_users h
  obtain ⟨hlen, hok⟩ := hdims op (mem_singleton_self op)
  obtain ⟨ops, hops, hgathers⟩ := exists_slices (eq_of_elementwise hy).1 hlen hok
  obtain ⟨nex, hnex, hnexgathers⟩ := gathers_elementwise hy hgathers
  cases hall with
  | cons hr hnil =>
    cases hnil
    refine ⟨[nex], ?_, .cons (hnexgathers.same (gathers_dims hr).2.2.2) .nil⟩
    rw [NewOps.eval, hops]
    simp only [bind_eq_bind, bind_some, hnex]
    rfl

structure Spans (c : SliceDim) (n : Nat) (users : List SliceDim) : Prop extends Common c users where
  ok : c.Ok n

theorem spans_commonSlice (hop : op ∈ users) (hdims : ∀ u ∈ users, u.length = shape.length ∧
      ∀ d < shape.length, (dimAt u d).Ok (coord shape d)) (hd : d < shape.length) :
    Spans (dimAt (commonSlice op users) d) (coord shape d) (users.map (dimAt · d)) := by
  have hlen := (hdims op hop).1
  have hcommon := common_commonSlice hop (hlen.symm ▸ hd) fun u hu => (hdims u hu).1.trans hlen.symm
  refine ⟨hcommon, ?_⟩
  have hok : ∀ u ∈ users.map (dimAt · d), u.Ok (coord shape d) := by
    intro u' hu'
    obtain ⟨u, hu, rfl⟩ := mem_map.mp hu'
    exact (hdims u hu).2 d hd
  have hmem := mem_map_of_mem (f := (dimAt · d)) hop
  obtain ⟨v, hv, hstart⟩ := hcommon.start_mem
  obtain ⟨w, hw, hlimit⟩ := hcommon.limit_mem
  obtain ⟨-, hle, -, hstride⟩ := hok _ hmem
  refine ⟨hstart ▸ (hok v hv).1, ?_, hlimit ▸ (hok w hw).2.2.1, ?_⟩
  · exact (hcommon.start_le _ hmem).trans (hle.trans (hcommon.limit_le _ hmem))
  · rcases hcommon.stride_eq with hone | hall
    · rw [hone]
      exact Int.one_pos
    · exact (hall _ hmem).1 ▸ hstride

theorem Spans.grid {c : SliceDim} (h : Spans c n (users.map (dimAt · d))) (hgrid : OnGrid users d) :
    c.stride = 1 ∨ (c.stride ∣ c.limit - c.start ∧ ∀ u ∈ users, (dimAt u d).start = c.start ∧
      (dimAt u d).stride = c.stride ∧ c.stride ∣ (dimAt u d).limit - (dimAt u d).start) := by
  refine or_iff_not_imp_left.mpr fun hone => ?_
  have hall := h.stride_eq.resolve_left hone
  have hmem : ∀ u ∈ users, dimAt u d ∈ users.map (dimAt · d) := fun u hu => mem_map_of_mem hu
  have hdvd : ∀ u ∈ users, ∀ v ∈ users, c.stride ∣ (dimAt u d).start - (dimAt v d).start := by
    intro u hu v hv
    rw [← sub_sub_sub_cancel_right _ _ c.start]
    exact Int.dvd_sub (hall _ (hmem u hu)).2 (hall _ (hmem v hv)).2
  have hplaces := hgrid c.stride hone (fun u hu => (hall _ (hmem u hu)).1) hdvd
  have hstart : ∀ u ∈ users, (dimAt u d).start = c.start := by
    intro u hu
    obtain ⟨v', hv', heq⟩ := h.start_mem
    obtain ⟨v, hv, rfl⟩ := mem_map.mp hv'
    rw [heq]
    exact (hplaces u hu).1 v hv
  refine ⟨?_, fun u hu => ⟨hstart u hu, (hall _ (hmem u hu)).1, (hplaces u hu).2⟩⟩
  obtain ⟨w', hw', heq⟩ := h.limit_mem
  obtain ⟨w, hw, rfl⟩ := mem_map.mp hw'
  rw [heq, ← hstart w hw]
  exact (hplaces w hw).2

theorem exists_newUser {u common : List SliceDim} {r nex : Tensor β} (hr : slice u y = some r)
    (hnex : Gathers (common.map SliceDim.size) (fun d k => (dimAt common d).source k) y nex)
    (hlen : common.length = y.shape.length)
    (hplaces : ∀ d < y.shape.length, (newUser (dimAt u d) (dimAt common d)).Ok (dimAt common d).size ∧
      (newUser (dimAt u d) (dimAt common d)).size = (dimAt u d).size ∧
        ∀ k, (dimAt common d).source ((newUser (dimAt u d) (dimAt common d)).source k) = (dimAt u d).source k) :
    ∃ r', slice (zipWith newUser u common) nex = some r' ∧ Same r' r := by
  obtain ⟨hulength, -, -, hgathers⟩ := gathers_dims hr
  have hsame : u.length = common.length := hulength.trans hlen.symm
  have hrank : nex.shape.length = y.shape.length := by rw [hnex.shape_eq, length_map, hlen]
  have hcoord : ∀ d < y.shape.length, coord nex.shape d = (dimAt common d).size := fun d hd => by
    rw [hnex.shape_eq, coord_map_size (hlen.symm ▸ hd)]
  have hzip : (zipWith newUser u common).length = y.shape.length := by
    rw [length_zipWith, hsame, min_self, hlen]
  have hat : ∀ d < y.shape.length, dimAt (zipWith newUser u common) d =
      newUser (dimAt u d) (dimAt common d) := fun d hd => dimAt_zipWith _ hsame (hulength.symm ▸ hd)
  have hexists : ∃ r', slice (zipWith newUser u common) nex = some r' := by
    refine exists_slice (hzip.trans hrank.symm) fun d hd => ?_
    rw [hrank] at hd
    rw [hat d hd, hcoord d hd]
    exact (hplaces d hd).1
  obtain ⟨r', hr'⟩ := hexists
  obtain ⟨-, hok, -, hgathers'⟩ := gathers_dims hr'
  have hsizes : (zipWith newUser u common).map SliceDim.size = u.map SliceDim.size := by
    refine ext_getElem (by rw [length_map, length_map, hzip, hulength]) fun d hd hd' => ?_
    rw [length_map] at hd hd'
    rw [← coord_eq_getElem, ← coord_eq_getElem, coord_map_size hd, coord_map_size hd', hat d (hzip ▸ hd)]
    exact (hplaces d (hzip ▸ hd)).2.1
  refine ⟨r', hr', ?_⟩
  have hboth := hnex.trans hgathers' (by rw [length_map, length_map, hzip, hlen]) fun d hd k hk => by
    rw [length_map, hzip] at hd
    rw [coord_map_size (hzip.symm ▸ hd)] at hk
    rw [← hnex.shape_eq]
    exact SliceDim.source_lt (hok d (hrank.symm ▸ hd)) hk
  rw [hsizes] at hboth
  refine (hboth.congr fun d hd k hk => ?_).same hgathers
  rw [length_map, hulength] at hd
  rw [hat d hd]
  exact (hplaces d hd).2.2 k

theorem preserved_common (hop : op ∈ users) (h : original f xs shape users = some rs)
    (hgrid : ∀ d < shape.length, OnGrid users d) :
    ∃ rs', (NewOps.common (commonSlice op users)
      ((commonSlice op users).map fun d => ((d.limit - d.start).tdiv d.stride).toNat)
      (users.map fun user => zipWith newUser user (commonSlice op users))).eval f xs = some rs' ∧
        Forall₂ Same rs' rs := by
  obtain ⟨y, hy, hshape, hall, hdims⟩ := eval_users h
  have hspans := fun d (hd : d < shape.length) => spans_commonSlice hop hdims hd
  have hrank := (hdims op hop).1
  have hlen : (commonSlice op users).length = shape.length :=
    (length_commonSlice fun u hu => (hdims u hu).1.trans hrank.symm).trans hrank
  generalize commonSlice op users = common at *
  have hplaces := fun d (hd : d < shape.length) => (hspans d hd).grid (hgrid d hd)
  obtain ⟨ops, hops, hgathers⟩ := exists_slices (eq_of_elementwise hy).1 hlen fun d hd => (hspans d hd).ok
  obtain ⟨nex, hnex, hnexgathers⟩ := gathers_elementwise hy hgathers
  have hsizes : (common.map fun d => ((d.limit - d.start).tdiv d.stride).toNat) = common.map SliceDim.size := by
    refine ext_getElem (by rw [length_map, length_map]) fun d hd _ => ?_
    rw [length_map] at hd
    rw [getElem_map, getElem_map]
    have hd' : d < shape.length := hlen ▸ hd
    have hdim : dimAt common d = common[d] := getD_eq_getElem _ _ hd
    rw [← hdim]
    obtain ⟨-, hle, -, hstride⟩ := (hspans d hd').ok
    refine (size_of_stride_dvd hstride ?_).symm
    rcases hplaces d hd' with hone | ⟨hdvd, -⟩
    · rw [hone]
      exact one_dvd _
    · exact hdvd
  have husers : ∀ u ∈ users, ∀ r, slice u y = some r →
      ∃ r', slice (zipWith newUser u common) nex = some r' ∧ Same r' r := by
    intro u hu r hr
    refine exists_newUser hr hnexgathers (hlen.trans (congrArg _ hshape.symm)) fun d hd => ?_
    rw [hshape] at hd
    have hmem := mem_map_of_mem (f := (dimAt · d)) hu
    have hok := (hdims u hu).2 d hd
    have hlimit := (hspans d hd).limit_le _ hmem
    rcases hplaces d hd with hone | ⟨hdvd', hall⟩
    · exact newUser_unit hone (hspans d hd).ok hok ((hspans d hd).start_le _ hmem) hlimit
    · obtain ⟨hstart, hstride, hdvd⟩ := hall u hu
      exact newUser_grid (hspans d hd).ok hok hstart hstride hdvd hdvd' hlimit
  have hrs : ∃ rs', allSome ((users.map fun user => zipWith newUser user common).map (slice · nex)) =
      some rs' ∧ Forall₂ Same rs' rs := by
    clear hgrid hplaces hspans hop h hdims
    induction hall with
    | nil => exact ⟨[], rfl, .nil⟩
    | cons hr _ ih =>
      obtain ⟨r', hr', hsame⟩ := husers _ mem_cons_self _ hr
      obtain ⟨rs', hrs', hsames⟩ := ih fun u hu => husers u (mem_cons_of_mem _ hu)
      refine ⟨r' :: rs', ?_, .cons hsame hsames⟩
      rw [map_cons, map_cons, hr', allSome, hrs', map_some]
  obtain ⟨rs', hrs', hsames⟩ := hrs
  refine ⟨rs', ?_, hsames⟩
  rw [NewOps.eval, hops, hsizes]
  simp only [bind_eq_bind, bind_some, hnex]
  exact hrs'

theorem onGrid_of_preserved (hop : op ∈ users) (h : original f xs shape users = some rs) {rs' : List (Tensor β)}
    (hnew : (NewOps.common (commonSlice op users)
      ((commonSlice op users).map fun d => ((d.limit - d.start).tdiv d.stride).toNat)
      (users.map fun user => zipWith newUser user (commonSlice op users))).eval f xs = some rs')
    (hsame : Forall₂ Same rs' rs) : ∀ d < shape.length, OnGrid users d := by
  obtain ⟨y, hy, hshape, hall, hdims⟩ := eval_users h
  have hspans := fun d (hd : d < shape.length) => spans_commonSlice hop hdims hd
  have hrank := (hdims op hop).1
  have hlen : (commonSlice op users).length = shape.length :=
    (length_commonSlice fun u hu => (hdims u hu).1.trans hrank.symm).trans hrank
  generalize commonSlice op users = common at *
  rw [NewOps.eval] at hnew
  obtain ⟨ops, -, hnew⟩ := bind_eq_some_iff.mp hnew
  obtain ⟨nex, -, hnew⟩ := bind_eq_some_iff.mp hnew
  have hnewUsers := allSome_map_iff.mp hnew
  rw [forall₂_map_left_iff] at hnewUsers
  intro d hd k hk hstride hdvd
  have hc : (dimAt common d).stride = k := by
    refine (hspans d hd).stride_of_all k (fun u hu => ?_) fun u hu v hv => ?_
    · obtain ⟨u', hu', rfl⟩ := mem_map.mp hu
      exact hstride u' hu'
    · obtain ⟨u', hu', rfl⟩ := mem_map.mp hu
      obtain ⟨v', hv', rfl⟩ := mem_map.mp hv
      exact hdvd u' hu' v' hv'
  have hpos := (hspans d hd).ok.2.2.2
  have hplace : ∀ u ∈ users, (dimAt u d).start = (dimAt common d).start ∧
      k ∣ (dimAt u d).limit - (dimAt u d).start := by
    intro u hu
    have hmem := mem_map_of_mem (f := (dimAt · d)) hu
    obtain ⟨i, hi, rfl⟩ := getElem_of_mem hu
    have hi' : i < rs'.length := hnewUsers.length_eq ▸ hi
    have hr := (forall₂_iff_get.mp hall).2 i hi (hall.length_eq ▸ hi)
    have hr' := (forall₂_iff_get.mp hnewUsers).2 i hi hi'
    have hsames := (forall₂_iff_get.mp hsame).2 i hi' (hall.length_eq ▸ hi)
    obtain ⟨-, -, hrshape, -⟩ := gathers_dims hr
    obtain ⟨hziplength, hok', hrshape', -⟩ := gathers_dims hr'
    obtain ⟨hulength, hok⟩ := hdims _ hu
    have hat : dimAt (zipWith newUser (users[i]) common) d = newUser (dimAt users[i] d) (dimAt common d) :=
      dimAt_zipWith _ (hulength.trans hlen.symm) (hulength.symm ▸ hd)
    have hzip : (zipWith newUser (users[i]) common).length = shape.length := by
      rw [length_zipWith, hulength, hlen, min_self]
    have hsizes := congrArg (coord · d) (hsames.shape_eq.symm.trans hrshape').symm
    have hsize : (newUser (dimAt users[i] d) (dimAt common d)).size = (dimAt users[i] d).size := by
      rw [hrshape] at hsizes
      have hcoord : coord ((zipWith newUser (users[i]) common).map SliceDim.size) d =
          coord ((users[i]).map SliceDim.size) d := hsizes
      rwa [coord_map_size (hzip.symm ▸ hd), coord_map_size (hulength.symm ▸ hd), hat] at hcoord
    have hokd := hok' d (hziplength ▸ hzip.symm ▸ hd)
    rw [get_eq_getElem] at hokd
    have hnewOk : (newUser (dimAt users[i] d) (dimAt common d)).start ≤
        (newUser (dimAt users[i] d) (dimAt common d)).limit := hat ▸ hokd.2.1
    have hall := (hspans d hd).stride_eq.resolve_left (hc.symm ▸ hk)
    obtain ⟨hustride, hudvd⟩ := hall _ hmem
    rw [← hc]
    exact start_eq_of_size_eq (by omega) hustride hudvd ((hspans d hd).start_le _ hmem) (hok d hd).2.1 hnewOk
      hsize
  intro u hu
  exact ⟨fun v hv => (hplace u hu).1.trans (hplace v hv).1.symm, (hplace u hu).2⟩

/-- The slices are right if and only if in each dimension the users have different strides, or are out of step, or
start and stop on one grid. -/
theorem sliceElementwise_preserves_iff {newOps : NewOps} (hop : op ∈ users)
    (hnew : SliceElementwise shape op (users.map some) = some newOps) (h : original f xs shape users = some rs) :
    Preserves f shape users newOps ↔ users.length = 1 ∨ ∀ d < shape.length, OnGrid users d := by
  rw [SliceElementwise, length_map, allSome_map_some] at hnew
  by_cases hone : users.length = 1
  · rw [if_pos hone] at hnew
    cases hnew
    obtain ⟨u, rfl⟩ := length_eq_one_iff.mp hone
    obtain rfl := mem_singleton.mp hop
    exact ⟨fun _ => .inl rfl, fun _ xs rs h => preserved_single h⟩
  · rw [if_neg hone] at hnew
    simp only [bind_eq_bind, bind_some] at hnew
    split at hnew
    · cases hnew
      constructor
      · intro hpreserves
        obtain ⟨rs', hrs', hsame⟩ := hpreserves xs rs h
        exact .inr (onGrid_of_preserved hop h hrs' hsame)
      · intro hgrid xs' rs' h'
        exact preserved_common hop h' (hgrid.resolve_left hone)
    · cases hnew

end

end EnzymeJax.ElementwiseSlices
