import EnzymeJax.Enzyme.IfOp
import EnzymeJax.Enzyme.Promote

/-!
# Exploring a block

A function that does to a block what the lowering relies on: the gradients become values, and the
pushes of one value make one entry.
-/

namespace EnzymeJax

open List Function
open Option hiding or_assoc

variable {α : Type*}

/-- The gradients a block sets. -/
def setGradients (ops : List (BlockOp α)) : List Nat :=
  ops.filterMap fun op => match op with
    | .set g _ => some g
    | _ => none

/-- A cache joins the entry of the value pushed to it. -/
def addPush (entries : List (Value × CacheInfo)) (q : Nat × Value) : List (Value × CacheInfo) :=
  if q.2 ∈ entries.map Prod.fst then
    entries.map fun p => if p.1 = q.2 then (p.1, ⟨p.2.cache, q.1 :: p.2.members⟩) else p
  else
    entries ++ [(q.2, ⟨q.1, [q.1]⟩)]

def explore : RemovalBlockExplore α := fun b gradients pushedCaches =>
  let p := promote b.ops id .outerGet
  { branch := ⟨p.ops, b.returns.map p.rename⟩
    outerGets := getsFirst b.ops []
    mapping := fun g => if g ∈ setGradients b.ops then some (p.current g) else none
    gradients := gradients ∪ setGradients b.ops
    pushedCaches := (pushes p.ops).foldl addPush pushedCaches }

variable {ops : List (BlockOp α)}

theorem mem_setGradients {g : Nat} :
    g ∈ setGradients ops ↔ ∃ v, .set g v ∈ ops := by
  rw [setGradients, mem_filterMap]
  constructor
  · intro h
    obtain ⟨op, hop, heq⟩ := h
    cases op with
    | set g' value =>
      cases heq
      exact ⟨value, hop⟩
    | pure result operands fn | get result g' | push c value | pop result c => cases heq
  · intro h
    obtain ⟨v, hv⟩ := h
    exact ⟨_, hv, rfl⟩

/-! ### Entries -/

section

variable {entries : List (Value × CacheInfo)}

theorem map_fst_addPush_of_mem {q : Nat × Value} (hq : q.2 ∈ entries.map Prod.fst) :
    (addPush entries q).map Prod.fst = entries.map Prod.fst := by
  rw [addPush, if_pos hq, List.map_map]
  refine map_congr_left fun p _ => ?_
  rw [comp_apply]
  split <;> rfl

theorem nodup_addPush (h : (entries.map Prod.fst).Nodup) (q : Nat × Value) :
    ((addPush entries q).map Prod.fst).Nodup := by
  by_cases hq : q.2 ∈ entries.map Prod.fst
  · rw [map_fst_addPush_of_mem hq]
    exact h
  · rw [addPush, if_neg hq, map_append]
    exact nodup_append'.mpr ⟨h, nodup_singleton _, disjoint_singleton.mpr hq⟩

theorem cache_mem_addPush (h : ∀ p ∈ entries, p.2.cache ∈ p.2.members) (q : Nat × Value) :
    ∀ p ∈ addPush entries q, p.2.cache ∈ p.2.members := by
  intro p hp
  rw [addPush] at hp
  split at hp
  · obtain ⟨p', hp', rfl⟩ := mem_map.mp hp
    split
    · exact mem_cons_of_mem _ (h p' hp')
    · exact h p' hp'
  · rcases mem_append.mp hp with hp | hp
    · exact h p hp
    · obtain rfl := mem_singleton.mp hp
      exact mem_cons_self

theorem mem_members_addPush {q : Nat × Value} {c : Nat} {v : Value} :
    (∃ info, (v, info) ∈ addPush entries q ∧ c ∈ info.members) ↔
      (∃ info, (v, info) ∈ entries ∧ c ∈ info.members) ∨ (c, v) = q := by
  by_cases hq : q.2 ∈ entries.map Prod.fst
  · rw [addPush, if_pos hq]
    constructor
    · intro h
      obtain ⟨info, hinfo, hc⟩ := h
      obtain ⟨p, hp, heq⟩ := mem_map.mp hinfo
      by_cases hkey : p.1 = q.2
      · rw [if_pos hkey] at heq
        cases heq
        rcases mem_cons.mp hc with rfl | hc
        · exact .inr (Prod.ext rfl hkey)
        · exact .inl ⟨p.2, hp, hc⟩
      · rw [if_neg hkey] at heq
        exact .inl ⟨info, heq ▸ hp, hc⟩
    · intro h
      rcases h with ⟨info, hinfo, hc⟩ | rfl
      · by_cases hkey : v = q.2
        · exact ⟨_, mem_map.mpr ⟨_, hinfo, if_pos hkey⟩, mem_cons_of_mem _ hc⟩
        · exact ⟨info, mem_map.mpr ⟨_, hinfo, if_neg hkey⟩, hc⟩
      · obtain ⟨p, hp, rfl⟩ := mem_map.mp hq
        exact ⟨_, mem_map.mpr ⟨p, hp, if_pos rfl⟩, mem_cons_self⟩
  · rw [addPush, if_neg hq]
    constructor
    · intro h
      obtain ⟨info, hinfo, hc⟩ := h
      rcases mem_append.mp hinfo with hinfo | hinfo
      · exact .inl ⟨info, hinfo, hc⟩
      · cases mem_singleton.mp hinfo
        exact .inr (Prod.ext (mem_singleton.mp hc) rfl)
    · intro h
      rcases h with ⟨info, hinfo, hc⟩ | rfl
      · exact ⟨info, mem_append_left _ hinfo, hc⟩
      · exact ⟨⟨c, [c]⟩, mem_append_right _ mem_cons_self, mem_cons_self⟩

end

section

variable {qs : List (Nat × Value)} {entries : List (Value × CacheInfo)}

theorem mem_members_foldl {c : Nat} {v : Value} : (∃ info, (v, info) ∈ qs.foldl addPush entries ∧ c ∈ info.members) ↔
      (∃ info, (v, info) ∈ entries ∧ c ∈ info.members) ∨ (c, v) ∈ qs := by
  induction qs generalizing entries with
  | nil => simp only [foldl_nil, not_mem_nil, or_false]
  | cons q qs ih => rw [foldl_cons, ih, mem_members_addPush, mem_cons, or_assoc]

theorem nodup_foldl (h : (entries.map Prod.fst).Nodup) : ((qs.foldl addPush entries).map Prod.fst).Nodup := by
  induction qs generalizing entries with
  | nil => exact h
  | cons q qs ih => exact ih (nodup_addPush h q)

theorem cache_mem_foldl (h : ∀ p ∈ entries, p.2.cache ∈ p.2.members) :
    ∀ p ∈ qs.foldl addPush entries, p.2.cache ∈ p.2.members := by
  induction qs generalizing entries with
  | nil => exact h
  | cons q qs ih => exact ih (cache_mem_addPush h q)

end

/-! ### The block left -/

theorem runBlock_erasePushes {s s' : State α}
    (h : runBlock ops s = some s') (hpops : pops ops = []) (caches : Nat → List α) :
    runBlock (erasePushes ops) ⟨s.values, s.gradients, caches⟩ = some ⟨s'.values, s'.gradients, caches⟩ := by
  induction ops generalizing s with
  | nil =>
    cases h
    rfl
  | cons op ops ih =>
    obtain ⟨s₁, hexec, hrun⟩ := runBlock_cons_eq_some.mp h
    cases op with
    | pop result c => cases hpops
    | push c value =>
      cases hexec
      have hrest := ih hrun hpops
      exact hrest
    | pure result operands fn | get result g | set g value =>
      cases hexec
      exact ih hrun hpops

theorem pushes_fst_promote (ops : List (BlockOp α)) (rename : Value → Value) (current : Nat → Value) :
    (pushes (promote ops rename current).ops).map Prod.fst = (pushes ops).map Prod.fst := by
  induction ops generalizing rename current with
  | nil => rfl
  | cons op ops ih =>
    cases op with
    | push c value => exact congrArg (c :: ·) (ih rename current)
    | pure result operands fn | pop result c => exact ih rename current
    | get result g => exact ih _ current
    | set g value => exact ih rename _

theorem pops_promote (h : pops ops = []) (rename : Value → Value)
    (current : Nat → Value) : pops (promote ops rename current).ops = [] := by
  induction ops generalizing rename current with
  | nil => rfl
  | cons op ops ih =>
    cases op with
    | pop result c => cases h
    | push c value | pure result operands fn => exact ih h rename current
    | get result g => exact ih h _ current
    | set g value => exact ih h rename _

theorem pushes_snd_promote {P : Value → Prop} {rename : Value → Value} {current : Nat → Value} {known : List Nat}
    (hops : ∀ op ∈ ops, ∀ x ∈ op.operands, P (rename x)) (hknown : ∀ g ∈ known, P (current g))
    (hgets : ∀ g ∈ getsFirst ops known, P (current g)) : ∀ q ∈ pushes (promote ops rename current).ops, P q.2 := by
  induction ops generalizing rename current known with
  | nil => exact nofun
  | cons op ops ih =>
    obtain ⟨hoperands₁, hoperands'⟩ := forall_mem_cons.mp hops
    cases op with
    | pure result operands fn | pop result c => exact ih hoperands' hknown hgets
    | push c value =>
      exact forall_mem_cons.mpr
        ⟨hoperands₁ value mem_cons_self, ih hoperands' hknown hgets⟩
    | get result g =>
      have hg : P (current g) ∧ ∀ g' ∈ getsFirst ops known, P (current g') := by
        rw [getsFirst] at hgets
        split at hgets
        · rename_i hin
          exact ⟨hknown g hin, hgets⟩
        · exact forall_mem_cons.mp hgets
      refine ih (fun op hop x hx => ?_) hknown hg.2
      by_cases heq : x = result
      · rw [heq, update_self]
        exact hg.1
      · rw [update_of_ne heq]
        exact hoperands' op hop x hx
    | set g value =>
      have hupd : ∀ g', (g' ≠ g → P (current g')) → P (update current g (rename value) g') := by
        intro g' hg'
        by_cases heq : g' = g
        · rw [heq, update_self]
          exact hoperands₁ value mem_cons_self
        · rw [update_of_ne heq]
          exact hg' heq
      refine ih hoperands' (fun g' hg' => hupd g' fun hne => ?_)
        fun g' hg' => hupd g' fun _ => hgets g' hg'
      exact hknown g' ((mem_cons.mp hg').resolve_left hne)

theorem explores_explore {b : Branch α} (hssa : Ssa b.ops) (hpops : pops b.ops = [])
    (hdefined : ∀ x ∈ definedIn b.ops, x.IsSource) (huses : ∀ x ∈ b.uses, x.IsSource)
    (gradients : List Nat) (pushedCaches : List (Value × CacheInfo)) :
    Explores b gradients pushedCaches (explore b gradients pushedCaches) where
  mem_gradients g := by
    rw [explore, mem_union_iff, mem_setGradients]
  keys_nodup := nodup_foldl
  mem_members _ _ := mem_members_foldl
  cache_mem := cache_mem_foldl
  pushes_fst := pushes_fst_promote _ _ _
  definedIn_source x hx := hdefined x (definedIn_promote hx)
  pushes_snd c v hv := by
    refine pushes_snd_promote (P := fun v => v.IsSource ∨ ∃ g ∈ getsFirst b.ops [], v = .outerGet g)
      (fun op hop x hx => .inl ?_)
      (fun _ hg => absurd hg not_mem_nil) (fun g hg => .inr ⟨g, hg, rfl⟩) (c, v) hv
    exact huses x (mem_append_left _ (mem_flatMap.mpr ⟨op, hop, hx⟩))
  run s s' t hrun hread hgradients houter := by
    have hsimulates : Simulates b.ops (· ∈ b.uses) (· ∈ getsFirst b.ops []) id .outerGet s
        ⟨t.values, t.gradients, s.caches⟩ := by
      refine ⟨hread, houter, rfl, fun _ _ => rfl, fun _ _ _ hx => hx, fun r hr g heq => ?_⟩
      have hr := hdefined r hr
      rw [← heq] at hr
      exact Bool.false_ne_true hr
    have hlive : ∀ op ∈ b.ops, ∀ x ∈ op.operands, x ∈ b.uses :=
      fun op hop x hx => mem_append_left _ (mem_flatMap.mpr ⟨op, hop, hx⟩)
    obtain ⟨t', hrun', hgradients', -, hvals, hcurrent, hpushes⟩ :=
      hsimulates.run hssa hlive (fun _ hg => absurd hg not_mem_nil) (fun _ hg => hg) hrun
    refine ⟨⟨t'.values, t'.gradients, t.caches⟩,
      runBlock_erasePushes hrun' (pops_promote hpops _ _) _, hgradients', rfl, ?_,
      fun g v hv => ?_, fun g hg => ?_, hpushes⟩
    · rw [explore, List.map_map]
      exact map_congr_left fun x hx => hvals x (mem_append_right _ hx)
    · obtain ⟨hset, hval⟩ := ite_none_right_eq_some.mp hv
      cases hval
      exact hcurrent g (.inr (mem_setGradients.mp hset))
    · refine runBlock_gradients hrun fun v hv => ?_
      exact absurd ((if_pos (mem_setGradients.mpr ⟨v, hv⟩)).symm.trans hg) (some_ne_none _)

end EnzymeJax
