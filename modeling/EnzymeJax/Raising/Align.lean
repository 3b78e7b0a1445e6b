import EnzymeJax.Library.Loop
import EnzymeJax.Raising.Affine

/-!
# Aligning raised values

`alignMemoryAccess` brings a raised value and others to one common list of variables: first those of
the value itself, then each new one of the others in order. Where a value is missing dimensions of
the common list it is broadcast.
-/

namespace EnzymeJax

open List Option

variable {V α : Type} [DecidableEq V]

/-- The state of the loops over the maps. `none` is a broadcast dimension not set yet. -/
structure Alignment (V : Type) where
  mapOperands : List V
  outputShape : List Nat
  broadcastDimensionsBs : List (List (Option Nat))
  needsBroadcastA : Bool

/-- A new dimension for `iv`, set wherever the maps of the others name the variable. -/
def Alignment.push (dsts : List (List V)) (s : Alignment V) (iv : V) (extent : Nat) :
    Alignment V where
  mapOperands := s.mapOperands ++ [iv]
  outputShape := s.outputShape ++ [extent]
  broadcastDimensionsBs := List.zipWith (fun dst dims =>
    List.zipWith (fun ivB dim => if ivB = iv then some s.outputShape.length else dim) dst dims)
    dsts s.broadcastDimensionsBs
  needsBroadcastA := s.needsBroadcastA

/-- Result `i` of map `k`: a new dimension unless it was set before. -/
def Alignment.pushDst (pc : ParallelContext V) (dsts : List (List V)) (k : Nat) (s : Alignment V)
    (result : V × Nat) : Alignment V :=
  if ((s.broadcastDimensionsBs.getD k []).getD result.2 none).isSome then s
  else { s.push dsts result.1 (pc.extent result.1) with needsBroadcastA := true }

def alignment (pc : ParallelContext V) (src : List V) (dsts : List (List V)) : Alignment V :=
  let unset := dsts.map fun dst => dst.map fun _ => none
  let s := src.foldl (fun s ivA => s.push dsts ivA (pc.extent ivA)) ⟨[], [], unset, false⟩
  dsts.zipIdx.foldl (fun s dst => dst.1.zipIdx.foldl (Alignment.pushDst pc dsts dst.2) s) s

def alignSrc (s : Alignment V) (a : Tensor α) (src : List V) : Option (Tensor α) :=
  if s.needsBroadcastA then a.broadcastInDim (List.range src.length) s.outputShape else some a

/-- Another value is broadcast unless it has all dimensions in their order. -/
def alignDst (outputShape : List Nat) (b : Tensor α) (dims : List (Option Nat)) :
    Option (Tensor α) :=
  if b.shape.length = outputShape.length ∧ dims = (List.range dims.length).map some then some b
  else b.broadcastInDim dims.reduceOption outputShape

def alignDsts (outputShape : List Nat) : List (Tensor α) → List (List (Option Nat)) →
    Option (List (Tensor α))
  | b :: bs, dims :: rest => do
    let b' ← alignDst outputShape b dims
    let bs' ← alignDsts outputShape bs rest
    some (b' :: bs')
  | _, _ => some []

/-- The aligned value, the aligned others, and the common list of variables. -/
def alignMemoryAccess (pc : ParallelContext V) (a : Tensor α) (src : List V)
    (bs : List (Tensor α)) (dsts : List (List V)) :
    Option (Tensor α × List (Tensor α) × List V) := do
  let s := alignment pc src dsts
  let a' ← alignSrc s a src
  let bs' ← alignDsts s.outputShape bs s.broadcastDimensionsBs
  some (a', bs', s.mapOperands)

/-! ### What alignment is for -/

/-- A point of the grid: a position within the extent of every variable of the list. -/
def ParallelContext.IsPoint (pc : ParallelContext V) (map : List V) (pos : V → Nat) : Prop :=
  ∀ iv ∈ map, pos iv < pc.extent iv

/-- `t'` over `map` has the value of `t` over `m` at every point. -/
structure KeepsValue (pc : ParallelContext V) (map m : List V) (t t' : Tensor α) : Prop where
  shape : t'.shape = affineMapShape pc map
  get : ∀ pos, pc.IsPoint map pos → t'.get (map.map pos) = t.get (m.map pos)

/-- The operands all become tensors over a common list of variables and keep their values. -/
def AlignsExactly (pc : ParallelContext V) (a : Tensor α) (src : List V) (bs : List (Tensor α))
    (dsts : List (List V)) : Prop :=
  ∃ a' bs' map, alignMemoryAccess pc a src bs dsts = some (a', bs', map) ∧ KeepsValue pc map src a a' ∧
      List.Forall₂ (fun (b : Tensor α × List V) b' => KeepsValue pc map b.2 b.1 b')
        (List.zip bs dsts) bs'

/-! ### Broadcasts -/

/-- The dimensions `dims` of the common list stand for the variables `m`. -/
def StandFor (map m : List V) (dims : List Nat) : Prop :=
  List.Forall₂ (fun iv d => map[d]? = some iv) m dims

variable {map m : List V} {dims : List Nat} {t : Tensor α} {f : V → Option Nat}

omit [DecidableEq V] in
theorem StandFor.lt_length (h : StandFor map m dims) : ∀ d ∈ dims, d < map.length := by
  induction h with
  | nil => simp
  | cons hhead _ ih =>
    intro d hd
    rcases mem_cons.mp hd with rfl | hmem
    · exact (List.getElem?_eq_some_iff.mp hhead).1
    · exact ih d hmem

omit [DecidableEq V] in
theorem StandFor.nodup (h : StandFor map m dims) (hm : m.Nodup) : dims.Nodup := by
  have hmem : ∀ {m dims}, StandFor map m dims → ∀ d ∈ dims, ∃ iv ∈ m, map[d]? = some iv := by
    intro m dims h
    induction h with
    | nil => simp
    | @cons iv _ _ _ hhead _ ih =>
      intro d hd
      rcases mem_cons.mp hd with rfl | hrest
      · exact ⟨iv, mem_cons_self, hhead⟩
      · obtain ⟨iv', hiv', hget⟩ := ih d hrest
        exact ⟨iv', mem_cons_of_mem iv hiv', hget⟩
  induction h with
  | nil => exact nodup_nil
  | @cons iv d m dims hhead hrest ih =>
    obtain ⟨hnew, hm⟩ := nodup_cons.mp hm
    refine nodup_cons.mpr ⟨fun hd => ?_, ih hm⟩
    obtain ⟨iv', hiv', hget⟩ := hmem hrest d hd
    obtain rfl : iv = iv' := some.inj (hhead.symm.trans hget)
    exact hnew hiv'

theorem StandFor.extents (pc : ParallelContext V) (h : StandFor map m dims) :
    ∀ p ∈ zip (affineMapShape pc m) dims, p.1 = Tensor.coord (affineMapShape pc map) p.2 := by
  induction h with
  | nil => simp [affineMapShape]
  | @cons iv d _ _ hhead _ ih =>
    intro p hp
    rcases mem_cons.mp hp with rfl | hrest
    · simp [Tensor.coord, affineMapShape, hhead]
    · exact ih p hrest

variable {pc : ParallelContext V}

theorem StandFor.index (h : StandFor map m dims) {pos : V → Nat} (hpos : pc.IsPoint map pos) :
    zipWith (fun n d => if n = 1 then 0 else Tensor.coord (map.map pos) d)
      (affineMapShape pc m) dims = m.map pos := by
  induction h with
  | nil => rfl
  | @cons iv d m dims hhead _ ih =>
    have hlt := hpos iv (mem_of_getElem? hhead)
    have hcoord : Tensor.coord (map.map pos) d = pos iv := by simp [Tensor.coord, hhead]
    simp only [affineMapShape, map_cons, zipWith_cons_cons] at ih ⊢
    rw [ih, hcoord]
    split
    · rw [show pos iv = 0 by omega]
    · rfl

theorem broadcastInDim_keeps (hdims : StandFor map m dims) (hnodup : dims.Nodup)
    (hshape : t.shape = affineMapShape pc m) :
    ∃ t', t.broadcastInDim dims (affineMapShape pc map) = some t' ∧ KeepsValue pc map m t t' := by
  have hok : Tensor.BroadcastOk t.shape dims (affineMapShape pc map) := by
    rw [hshape]
    refine ⟨?_, hnodup, ?_, fun p hp => .inr (hdims.extents pc p hp)⟩
    · rw [affineMapShape, length_map]
      exact hdims.length_eq.symm
    · rw [affineMapShape, length_map]
      exact hdims.lt_length
  refine ⟨_, if_pos hok, rfl, fun pos hpos => ?_⟩
  rw [hshape]
  exact congrArg t.get (hdims.index hpos)

/-! ### The loops over the maps -/

/-- What the loops keep: the dimensions that are set stand for the variables of the common list. -/
structure Alignment.Sound (pc : ParallelContext V) (dsts : List (List V)) (s : Alignment V) :
    Prop where
  shape : s.outputShape = affineMapShape pc s.mapOperands
  dims : ∃ f : V → Option Nat, s.broadcastDimensionsBs = dsts.map (·.map f) ∧
    (∀ iv d, f iv = some d → s.mapOperands[d]? = some iv) ∧ ∀ iv ∈ s.mapOperands, (f iv).isSome

variable {dsts : List (List V)}

theorem Alignment.Sound.push {s : Alignment V}
    (h : s.Sound pc dsts) (iv : V) : (s.push dsts iv (pc.extent iv)).Sound pc dsts := by
  obtain ⟨hshape, f, hdims, hstand, hset⟩ := h
  have hlen : s.outputShape.length = s.mapOperands.length := by
    rw [hshape, affineMapShape, length_map]
  refine ⟨?_, fun w => if w = iv then some s.mapOperands.length else f w, ?_, ?_, ?_⟩
  · simp only [Alignment.push, hshape, affineMapShape, map_append, map_singleton]
  · simp only [Alignment.push, hdims, hlen]
    rw [zipWith_map_right, zipWith_self]
    simp only [zipWith_map_right, zipWith_self]
  · intro w d hd
    change (s.mapOperands ++ [iv])[d]? = some w
    dsimp only at hd
    split at hd
    · rename_i heq
      cases hd
      rw [heq, getElem?_concat_length]
    · have hget := hstand w d hd
      rw [getElem?_append_left (List.getElem?_eq_some_iff.mp hget).1, hget]
  · intro w hw
    dsimp only
    split
    · rfl
    · rename_i hne
      rcases mem_append.mp hw with hold | hnew
      · exact hset w hold
      · exact absurd (mem_singleton.mp hnew) hne

theorem Alignment.Sound.foldl_push {s : Alignment V} (h : s.Sound pc dsts) (src : List V) :
    (src.foldl (fun s ivA => s.push dsts ivA (pc.extent ivA)) s).Sound pc dsts ∧
      (src.foldl (fun s ivA => s.push dsts ivA (pc.extent ivA)) s).mapOperands = s.mapOperands ++ src ∧
      (src.foldl (fun s ivA => s.push dsts ivA (pc.extent ivA)) s).needsBroadcastA = s.needsBroadcastA := by
  induction src generalizing s with
  | nil => exact ⟨h, (append_nil _).symm, rfl⟩
  | cons iv src ih =>
    obtain ⟨hsound, hmap, hneeds⟩ := ih (h.push iv)
    refine ⟨hsound, ?_, hneeds⟩
    rw [foldl_cons, hmap, Alignment.push, append_assoc, singleton_append]

/-- What the loops over the maps of the others keep, given the variables of the value itself. -/
structure Alignment.Extends (pc : ParallelContext V) (src : List V) (dsts : List (List V))
    (s : Alignment V) : Prop where
  sound : s.Sound pc dsts
  prefix_src : src <+: s.mapOperands
  eq_src : s.needsBroadcastA = false → s.mapOperands = src
  nodup : src.Nodup → s.mapOperands.Nodup
  mem : ∀ iv ∈ s.mapOperands, iv ∈ src ∨ ∃ dst ∈ dsts, iv ∈ dst

section

variable {pc : ParallelContext V} {src : List V} {dsts : List (List V)} {s : Alignment V}
  (h : s.Extends pc src dsts) {dst : List V}

include h

theorem Alignment.Extends.pushDst {k i : Nat} {iv : V} (hk : dsts[k]? = some dst) (hi : dst[i]? = some iv) :
    (s.pushDst pc dsts k (iv, i)).Extends pc src dsts ∧ iv ∈ (s.pushDst pc dsts k (iv, i)).mapOperands ∧
      ∀ w, w ∈ s.mapOperands → w ∈ (s.pushDst pc dsts k (iv, i)).mapOperands := by
  obtain ⟨f, hdims, hstand, hset⟩ := h.sound.dims
  have hread : (s.broadcastDimensionsBs.getD k []).getD i none = f iv := by
    simp [List.getD, hdims, hk, hi]
  rw [Alignment.pushDst]
  dsimp only
  rw [hread]
  split
  · rename_i hsome
    obtain ⟨d, hd⟩ := isSome_iff_exists.mp hsome
    exact ⟨h, mem_of_getElem? (hstand iv d hd), fun _ hw => hw⟩
  · rename_i hnone
    have hpush := h.sound.push iv
    refine ⟨⟨⟨hpush.shape, hpush.dims⟩, h.prefix_src.trans (prefix_append _ _), by simp, ?_, ?_⟩,
      mem_append_right _ (mem_singleton_self iv), fun w hw => mem_append_left _ hw⟩
    · intro hsrc
      have hnew : iv ∉ s.mapOperands := fun hmem => hnone (hset iv hmem)
      exact nodup_append'.mpr ⟨h.nodup hsrc, nodup_singleton iv, disjoint_singleton.mpr hnew⟩
    · intro w hw
      rcases mem_append.mp hw with hold | hlast
      · exact h.mem w hold
      · obtain rfl := mem_singleton.mp hlast
        exact .inr ⟨dst, mem_of_getElem? hk, mem_of_getElem? hi⟩

theorem Alignment.Extends.foldl_pushDst {k : Nat} (hk : dsts[k]? = some dst) :
    (dst.zipIdx.foldl (Alignment.pushDst pc dsts k) s).Extends pc src dsts ∧
      (∀ iv ∈ dst, iv ∈ (dst.zipIdx.foldl (Alignment.pushDst pc dsts k) s).mapOperands) ∧
      ∀ iv ∈ s.mapOperands, iv ∈ (dst.zipIdx.foldl (Alignment.pushDst pc dsts k) s).mapOperands := by
  obtain ⟨hextends, hall, hkeep⟩ := Loop.foldl_rule (P := Alignment.Extends pc src dsts)
    (Q := fun (result : V × Nat) s => result.1 ∈ s.mapOperands) (l := dst.zipIdx)
    (fun result hres s hs => by
      obtain ⟨hnext, hmem, hkeep⟩ := hs.pushDst hk (mem_zipIdx_iff_getElem?.mp hres)
      exact ⟨hnext, hmem, fun y => hkeep y.1⟩) h
  refine ⟨hextends, fun iv hiv => ?_, fun iv => hkeep (iv, 0)⟩
  obtain ⟨i, hi⟩ := mem_iff_getElem?.mp hiv
  exact hall (iv, i) (mem_zipIdx_iff_getElem?.mpr hi)

end

theorem alignment_extends (pc : ParallelContext V) (src : List V) (dsts : List (List V)) :
    (alignment pc src dsts).Extends pc src dsts ∧
      ∀ dst ∈ dsts, ∀ iv ∈ dst, iv ∈ (alignment pc src dsts).mapOperands := by
  have hinit : Alignment.Sound pc dsts
      ⟨[], [], dsts.map fun dst => dst.map fun _ => none, false⟩ :=
    ⟨rfl, fun _ => none, rfl, by simp, by simp⟩
  obtain ⟨hsound, hmap, hneeds⟩ := hinit.foldl_push src
  rw [nil_append] at hmap
  obtain ⟨hextends, hall, -⟩ := Loop.foldl_rule (P := Alignment.Extends pc src dsts)
    (Q := fun (dst : List V × Nat) s => ∀ iv ∈ dst.1, iv ∈ s.mapOperands)
    (f := fun s dst => dst.1.zipIdx.foldl (Alignment.pushDst pc dsts dst.2) s) (l := dsts.zipIdx)
    (fun dst hdst s hs => by
      obtain ⟨hnext, hmem, hkeep⟩ := hs.foldl_pushDst (mem_zipIdx_iff_getElem?.mp hdst)
      exact ⟨hnext, hmem, fun y hy iv hiv => hkeep iv (hy iv hiv)⟩)
    ⟨hsound, by rw [hmap], fun _ => hmap, fun hsrc => by rwa [hmap], fun iv hiv => .inl (hmap ▸ hiv)⟩
  refine ⟨hextends, fun dst hdst => ?_⟩
  obtain ⟨k, hk⟩ := mem_iff_getElem?.mp hdst
  exact hall (dst, k) (mem_zipIdx_iff_getElem?.mpr hk)

/-! ### The aligned values -/

omit [DecidableEq V] in
theorem exists_standFor (hstand : ∀ iv d, f iv = some d → map[d]? = some iv) (hset : ∀ iv ∈ m, (f iv).isSome) :
    ∃ dims, m.map f = dims.map some ∧ StandFor map m dims := by
  induction m with
  | nil => exact ⟨[], rfl, .nil⟩
  | cons iv m ih =>
    obtain ⟨d, hd⟩ := isSome_iff_exists.mp (hset iv mem_cons_self)
    obtain ⟨dims, hdims, hrest⟩ := ih fun w hw => hset w (mem_cons_of_mem iv hw)
    exact ⟨d :: dims, by rw [map_cons, hd, hdims, map_cons], .cons (hstand iv d hd) hrest⟩

omit [DecidableEq V] in
theorem StandFor.eq_of_range (h : StandFor map m (range m.length)) (hlen : m.length = map.length) : map = m := by
  refine ext_getElem hlen.symm fun i hmap hm => ?_
  have hget := h.get hm (by rwa [length_range])
  simp only [get_eq_getElem, getElem_range] at hget
  exact some.inj ((getElem?_eq_getElem hmap).symm.trans hget)

omit [DecidableEq V] in
theorem standFor_range {src : List V} (h : src <+: map) : StandFor map src (range src.length) := by
  refine forall₂_iff_get.mpr ⟨length_range.symm, fun i hi _ => ?_⟩
  obtain ⟨rest, rfl⟩ := h
  simp only [get_eq_getElem, getElem_range]
  rw [getElem?_append_left hi, getElem?_eq_getElem hi]

theorem KeepsValue.refl (pc : ParallelContext V) (ht : t.shape = affineMapShape pc m) : KeepsValue pc m m t t :=
  ⟨ht, fun _ _ => rfl⟩

section

variable {pc : ParallelContext V}

/-- A value whose dimensions are all set is aligned, well formed and keeping its value, exactly when
its map names no variable twice. -/
theorem alignDst_iff {b : Tensor α} (hstand : ∀ iv d, f iv = some d → map[d]? = some iv)
    (hset : ∀ iv ∈ m, (f iv).isSome) (hb : b.shape = affineMapShape pc m) :
    (∃ b', alignDst (affineMapShape pc map) b (m.map f) = some b' ∧ KeepsValue pc map m b b') ↔ m.Nodup := by
  obtain ⟨dims, hdims, hrefer⟩ := exists_standFor hstand hset
  have hreduce : (m.map f).reduceOption = dims := by
    change (m.map f).filterMap id = dims
    rw [hdims, filterMap_map]
    simp
  constructor
  · rintro ⟨b', halign, -⟩
    suffices hnodup : dims.Nodup by
      have hmap : (m.map f).Nodup := hdims ▸ hnodup.map (some_injective Nat)
      exact hmap.of_map f
    rw [alignDst] at halign
    split at halign
    · rename_i hid
      rw [hdims, length_map] at hid
      rw [map_injective_iff.mpr (some_injective Nat) hid.2]
      exact nodup_range
    · rw [hreduce] at halign
      exact (Tensor.of_broadcastInDim halign).1.2.1
  · intro hm
    have hnodup := hrefer.nodup hm
    rw [alignDst]
    split
    · rename_i hid
      rw [hdims, length_map, hb, affineMapShape, affineMapShape, length_map, length_map] at hid
      obtain rfl : dims = range m.length := by
        rw [hrefer.length_eq]
        exact map_injective_iff.mpr (some_injective Nat) hid.2
      obtain rfl := hrefer.eq_of_range hid.1
      exact ⟨b, rfl, .refl pc hb⟩
    · rw [hreduce]
      exact broadcastInDim_keeps hrefer hnodup hb

variable {bs : List (Tensor α)} {src : List V} {a : Tensor α}

theorem alignDsts_iff (hstand : ∀ iv d, f iv = some d → map[d]? = some iv)
    (hbs : Forall₂ (fun b dst => b.shape = affineMapShape pc dst) bs dsts)
    (hset : ∀ dst ∈ dsts, ∀ iv ∈ dst, (f iv).isSome) :
    (∃ bs', alignDsts (affineMapShape pc map) bs (dsts.map (·.map f)) = some bs' ∧
      Forall₂ (fun (b : Tensor α × List V) b' => KeepsValue pc map b.2 b.1 b')
        (zip bs dsts) bs') ↔ ∀ dst ∈ dsts, dst.Nodup := by
  induction hbs with
  | nil => simp [alignDsts]
  | @cons b dst bs dsts hb _ ih =>
    have hhead := alignDst_iff hstand (hset dst mem_cons_self) hb
    have htail := ih fun dst' hdst' => hset dst' (mem_cons_of_mem dst hdst')
    rw [forall_mem_cons, ← hhead, ← htail]
    simp only [alignDsts, map_cons, zip_cons_cons, bind_eq_bind]
    constructor
    · rintro ⟨bs', halign, hkeeps⟩
      obtain ⟨b', hb', halign⟩ := bind_eq_some_iff.mp halign
      obtain ⟨rest, hrest, halign⟩ := bind_eq_some_iff.mp halign
      cases halign
      obtain ⟨hkeep, hkeeps⟩ := forall₂_cons.mp hkeeps
      exact ⟨⟨b', hb', hkeep⟩, rest, hrest, hkeeps⟩
    · rintro ⟨⟨b', hb', hkeep⟩, rest, hrest, hkeeps⟩
      exact ⟨b' :: rest, by rw [hb', bind_some, hrest, bind_some], .cons hkeep hkeeps⟩

theorem Alignment.Extends.alignSrc {s : Alignment V} (h : s.Extends pc src dsts)
    (ha : a.shape = affineMapShape pc src) :
    ∃ a', alignSrc s a src = some a' ∧ KeepsValue pc s.mapOperands src a a' := by
  rw [EnzymeJax.alignSrc]
  split
  · rw [h.sound.shape]
    exact broadcastInDim_keeps (standFor_range h.prefix_src) nodup_range ha
  · rename_i hneeds
    rw [h.eq_src (Bool.not_eq_true _ ▸ hneeds)]
    exact ⟨a, rfl, .refl pc ha⟩

/-- Alignment is exact unless the map of one of the others names a variable twice: its broadcast
would have a repeated dimension. -/
theorem alignsExactly_iff (ha : a.shape = affineMapShape pc src)
    (hbs : Forall₂ (fun b dst => b.shape = affineMapShape pc dst) bs dsts) :
    AlignsExactly pc a src bs dsts ↔ ∀ dst ∈ dsts, dst.Nodup := by
  obtain ⟨hextends, hall⟩ := alignment_extends pc src dsts
  obtain ⟨f, hdims, hstand, hset⟩ := hextends.sound.dims
  obtain ⟨a', ha', hkeepA⟩ := hextends.alignSrc ha
  rw [← alignDsts_iff hstand hbs fun dst hdst iv hiv => hset iv (hall dst hdst iv hiv)]
  unfold AlignsExactly alignMemoryAccess
  simp only [hextends.sound.shape, ha', hdims, bind_eq_bind, bind_some]
  constructor
  · rintro ⟨a'', bs', map, halign, -, hkeeps⟩
    obtain ⟨rest, hrest, hres⟩ := bind_eq_some_iff.mp halign
    obtain ⟨-, rfl, rfl⟩ : a' = a'' ∧ rest = bs' ∧ _ = map := by simpa using hres
    exact ⟨rest, hrest, hkeeps⟩
  · rintro ⟨bs', hbs', hkeeps⟩
    exact ⟨a', bs', _, by rw [hbs', bind_some], hkeepA, hkeeps⟩

theorem mem_alignMemoryAccess {a' : Tensor α} {bs' : List (Tensor α)}
    (h : alignMemoryAccess pc a src bs dsts = some (a', bs', map)) :
    (src.Nodup → map.Nodup) ∧ ∀ iv, iv ∈ map ↔ iv ∈ src ∨ ∃ dst ∈ dsts, iv ∈ dst := by
  obtain ⟨hextends, hall⟩ := alignment_extends pc src dsts
  obtain ⟨_, -, h⟩ := bind_eq_some_iff.mp h
  obtain ⟨_, -, h⟩ := bind_eq_some_iff.mp h
  obtain rfl : (alignment pc src dsts).mapOperands = map :=
    congrArg (fun r => r.2.2) (some.inj h)
  refine ⟨hextends.nodup, fun iv => ⟨hextends.mem iv, ?_⟩⟩
  rintro (hsrc | ⟨dst, hdst, hiv⟩)
  · exact hextends.prefix_src.subset hsrc
  · exact hall dst hdst iv hiv

end

end EnzymeJax
