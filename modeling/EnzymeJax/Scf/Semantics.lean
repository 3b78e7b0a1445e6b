import EnzymeJax.Scf.Dialect
import Mathlib.Tactic.Common

/-!
# Code with regions

What code does depends on the values that it uses, and changes those that it defines. Without side effects it leaves
the world as it is. With single assignments every value is in the end what its operation makes of the operands.
-/

namespace EnzymeJax.Scf

open List Function

variable {W D : Type} {env env' : Env D} {vs : List Value} {xs : List (Val D)} {v : Value} {w w' : W}
  {op : Op W D} {ops : List (Op W D)} {S : Value → Prop}

namespace Env

theorem bind_of_not_mem (hv : v ∉ vs) : env.bind vs xs v = env v := if_neg hv

theorem bind_congr_of_mem (hv : v ∈ vs) : env.bind vs xs v = env'.bind vs xs v := by
  rw [bind, bind, if_pos hv, if_pos hv]

theorem bind_getElem (hnodup : vs.Nodup) {i : Nat} {x : Val D} (hv : vs[i]? = some v) (hx : xs[i]? = some x) :
    env.bind vs xs v = x := by
  induction vs generalizing xs i with
  | nil => cases hv
  | cons u vs ih =>
    rw [nodup_cons] at hnodup
    cases xs with
    | nil => cases hx
    | cons y xs =>
      cases i with
      | zero =>
        cases hv
        cases hx
        simp [bind]
      | succ i =>
        have hmem : v ∈ vs := mem_of_getElem? hv
        have hne : u ≠ v := fun heq => hnodup.1 (heq ▸ hmem)
        have hrest := ih hnodup.2 hv hx
        rw [bind, if_pos hmem] at hrest
        rw [bind, if_pos (mem_cons_of_mem _ hmem), zip_cons_cons, find?_cons_of_neg (by simpa using hne), hrest]

theorem map_bind (hnodup : vs.Nodup) (hlen : xs.length = vs.length) : vs.map (env.bind vs xs) = xs := by
  refine ext_getElem (by rw [length_map, hlen]) fun i hi hi' => ?_
  rw [length_map] at hi
  rw [getElem_map]
  exact bind_getElem hnodup (getElem?_eq_getElem hi) (getElem?_eq_getElem hi')

theorem bindArgs_arg (block : Block) (i : Nat) :
    env.bindArgs block xs (.arg block i) = xs[i]?.getD (env (.arg block i)) :=
  if_pos rfl

end Env

/-! ### What code depends on -/

theorem Op.run_frame (hv : v ∉ op.results) : (op.run (w, env)).2 v = env v := by
  cases op with
  | prim p r as =>
    rw [Op.run]
    exact update_of_ne (fun heq => hv (mem_singleton.mpr heq)) ..
  | ifOp rs c thenOps thenYield elseOps elseYield =>
    rw [Op.run]
    split
    · exact Env.bind_of_not_mem hv
    · exact Env.bind_of_not_mem hv
  | other rs as f | effect rs as f =>
    rw [Op.run]
    exact Env.bind_of_not_mem hv

theorem runAll_cons : runAll (op :: ops) (w, env) = runAll ops (op.run (w, env)) := rfl

theorem runAll_append {ops' : List (Op W D)} {s : W × Env D} : runAll (ops ++ ops') s = runAll ops' (runAll ops s) := by
  induction ops generalizing s with
  | nil => rfl
  | cons op ops ih => exact ih

theorem runAll_frame (hv : ∀ op ∈ ops, v ∉ op.results) : (runAll ops (w, env)).2 v = env v := by
  induction ops generalizing w env with
  | nil => rfl
  | cons op ops ih =>
    rw [runAll_cons, ← Prod.mk.eta (p := op.run (w, env)), ih fun op hop => hv op (mem_cons_of_mem _ hop)]
    exact Op.run_frame (hv op mem_cons_self)

/-- The values in `S` are the same. -/
def Env.Agree (S : Value → Prop) (env env' : Env D) : Prop := ∀ v, S v → env' v = env v

theorem Env.Agree.map (h : Env.Agree S env env') (hvs : ∀ v ∈ vs, S v) : vs.map env' = vs.map env :=
  map_congr_left fun v hv => h v (hvs v hv)

theorem Env.Agree.bind (h : Env.Agree S env env') : Env.Agree S (env.bind vs xs) (env'.bind vs xs) := by
  intro v hv
  by_cases hmem : v ∈ vs
  · exact Env.bind_congr_of_mem hmem
  · rw [Env.bind_of_not_mem hmem, Env.bind_of_not_mem hmem, h v hv]

/-- The states have the same world, and agree on the values in `S`. -/
def Similar (S : Value → Prop) (s s' : W × Env D) : Prop := s'.1 = s.1 ∧ Env.Agree S s.2 s'.2

mutual

theorem Op.run_similar (op : Op W D) {s s' : W × Env D} (huses : ∀ v ∈ op.uses, S v) (h : Similar S s s') :
    Similar S (op.run s) (op.run s') := by
  obtain ⟨w, env⟩ := s
  obtain ⟨w', env'⟩ := s'
  obtain ⟨hw, henv⟩ := h
  dsimp only at hw
  subst hw
  cases op with
  | prim p r as =>
    refine ⟨rfl, fun v hv => ?_⟩
    have hops : as.map env' = as.map env := henv.map huses
    rw [Op.run, Op.run, hops]
    dsimp only
    by_cases heq : v = r
    · rw [heq, update_self, update_self]
    · rw [update_of_ne heq, update_of_ne heq]
      exact henv v hv
  | ifOp rs c thenOps thenYield elseOps elseYield =>
    rw [Op.uses] at huses
    have hcond : env' c = env c := henv c (huses c mem_cons_self)
    rw [Op.run, Op.run, hcond]
    split
    · obtain ⟨hw, hinner⟩ := runAll_similar thenOps (fun v hv => huses v (by simp [hv]))
        (⟨rfl, henv⟩ : Similar S (w', env) (w', env'))
      refine ⟨hw, ?_⟩
      have hyields : thenYield.map (runAll thenOps (w', env')).2 = thenYield.map (runAll thenOps (w', env)).2 :=
        hinner.map fun v hv => huses v (by simp [hv])
      dsimp only
      rw [hyields]
      exact henv.bind
    · obtain ⟨hw, hinner⟩ := runAll_similar elseOps (fun v hv => huses v (by simp [hv]))
        (⟨rfl, henv⟩ : Similar S (w', env) (w', env'))
      refine ⟨hw, ?_⟩
      have hyields : elseYield.map (runAll elseOps (w', env')).2 = elseYield.map (runAll elseOps (w', env)).2 :=
        hinner.map fun v hv => huses v (by simp [hv])
      dsimp only
      rw [hyields]
      exact henv.bind
  | other rs as f | effect rs as f =>
    have hops : as.map env' = as.map env := henv.map huses
    rw [Op.run, Op.run, hops]
    exact ⟨rfl, henv.bind⟩

theorem runAll_similar (ops : List (Op W D)) {s s' : W × Env D} (huses : ∀ v ∈ Op.allUses ops, S v)
    (h : Similar S s s') : Similar S (runAll ops s) (runAll ops s') := by
  cases ops with
  | nil => exact h
  | cons op ops =>
    rw [Op.allUses] at huses
    exact runAll_similar ops (fun v hv => huses v (mem_append_right _ hv))
      (Op.run_similar op (fun v hv => huses v (mem_append_left _ hv)) h)

end

mutual

theorem Op.run_fst_of_isPure (op : Op W D) (s : W × Env D) (hpure : op.isPure = true) : (op.run s).1 = s.1 := by
  cases op with
  | prim p r as => rfl
  | ifOp rs c thenOps thenYield elseOps elseYield =>
    rw [Op.isPure, Bool.and_eq_true] at hpure
    obtain ⟨w, env⟩ := s
    rw [Op.run]
    split
    · exact runAll_fst_of_allPure thenOps (w, env) hpure.1
    · exact runAll_fst_of_allPure elseOps (w, env) hpure.2
  | other rs as f => rfl
  | effect rs as f => cases hpure

theorem runAll_fst_of_allPure (ops : List (Op W D)) (s : W × Env D) (hpure : Op.allPure ops = true) :
    (runAll ops s).1 = s.1 := by
  cases ops with
  | nil => rfl
  | cons op ops =>
    rw [Op.allPure, Bool.and_eq_true] at hpure
    rw [runAll, runAll_fst_of_allPure ops _ hpure.2, Op.run_fst_of_isPure op s hpure.1]

end

mutual

theorem Op.run_snd_of_isPure (op : Op W D) (env : Env D) (hpure : op.isPure = true) :
    (op.run (w', env)).2 = (op.run (w, env)).2 := by
  cases op with
  | prim p r as => rfl
  | ifOp rs c thenOps thenYield elseOps elseYield =>
    rw [Op.isPure, Bool.and_eq_true] at hpure
    rw [Op.run, Op.run]
    split
    · dsimp only
      rw [runAll_snd_of_allPure thenOps env hpure.1]
    · dsimp only
      rw [runAll_snd_of_allPure elseOps env hpure.2]
  | other rs as f => rfl
  | effect rs as f => cases hpure

theorem runAll_snd_of_allPure (ops : List (Op W D)) (env : Env D) (hpure : Op.allPure ops = true) :
    (runAll ops (w', env)).2 = (runAll ops (w, env)).2 := by
  cases ops with
  | nil => rfl
  | cons op ops =>
    rw [Op.allPure, Bool.and_eq_true] at hpure
    have hfst : ∀ w : W, op.run (w, env) = (w, (op.run (w, env)).2) := fun w =>
      Prod.ext (Op.run_fst_of_isPure op (w, env) hpure.1) rfl
    rw [runAll_cons, runAll_cons, hfst w', hfst w, Op.run_snd_of_isPure op env hpure.1]
    exact runAll_snd_of_allPure ops _ hpure.2

end

theorem Op.run_results (huses : ∀ v ∈ op.uses, env' v = env v) (hv : v ∈ op.results) :
    (op.run (w, env')).2 v = (op.run (w, env)).2 v := by
  have hagree : Env.Agree (· ∈ op.uses) env env' := huses
  cases op with
  | prim p r as =>
    obtain rfl := mem_singleton.mp hv
    have hops : as.map env' = as.map env := hagree.map fun v hv => hv
    change update env' v (p.eval (as.map env')) v = update env v (p.eval (as.map env)) v
    rw [update_self, update_self, hops]
  | ifOp rs c thenOps thenYield elseOps elseYield =>
    have hcond : env' c = env c := huses c mem_cons_self
    rw [Op.run, Op.run, hcond]
    split
    · obtain ⟨-, hinner⟩ := runAll_similar thenOps (fun v hv => by simp [Op.uses, hv])
        (⟨rfl, hagree⟩ : Similar _ (w, env) (w, env'))
      have hyields : thenYield.map (runAll thenOps (w, env')).2 = thenYield.map (runAll thenOps (w, env)).2 :=
        hinner.map fun v hv => by simp [Op.uses, hv]
      dsimp only
      rw [hyields]
      exact Env.bind_congr_of_mem hv
    · obtain ⟨-, hinner⟩ := runAll_similar elseOps (fun v hv => by simp [Op.uses, hv])
        (⟨rfl, hagree⟩ : Similar _ (w, env) (w, env'))
      have hyields : elseYield.map (runAll elseOps (w, env')).2 = elseYield.map (runAll elseOps (w, env)).2 :=
        hinner.map fun v hv => by simp [Op.uses, hv]
      dsimp only
      rw [hyields]
      exact Env.bind_congr_of_mem hv
  | other rs as f | effect rs as f =>
    have hops : as.map env' = as.map env := hagree.map fun v hv => hv
    rw [Op.run, Op.run, hops]
    exact Env.bind_congr_of_mem hv

theorem Op.run_comm {i : Op W D} {s : W × Env D} (hpure : op.isPure = true)
    (hresults : ∀ v ∈ op.results, v ∉ i.results ∧ v ∉ i.uses) (huses : ∀ v ∈ op.uses, v ∉ i.results) :
    op.run (i.run s) = i.run (op.run s) := by
  obtain ⟨w, env⟩ := s
  have hsimilar : Similar (· ∉ op.results) (w, env) (op.run (w, env)) :=
    ⟨Op.run_fst_of_isPure op (w, env) hpure, fun v hv => Op.run_frame hv⟩
  obtain ⟨hworld, hagree⟩ := Op.run_similar i (fun v hv hmem => (hresults v hmem).2 hv) hsimilar
  refine Prod.ext ((Op.run_fst_of_isPure op _ hpure).trans hworld.symm) (funext fun v => ?_)
  by_cases hv : v ∈ op.results
  · rw [← Prod.mk.eta (p := op.run (w, env)), Op.run_frame (hresults v hv).1, ← Prod.mk.eta (p := i.run (w, env)),
      Op.run_snd_of_isPure op _ hpure]
    exact Op.run_results (fun u hu => Op.run_frame (huses u hu)) hv
  · rw [hagree v hv, ← Prod.mk.eta (p := i.run (w, env)), Op.run_frame hv]

theorem runAll_comm {s : W × Env D} (hpure : op.isPure = true)
    (hresults : ∀ i ∈ ops, ∀ v ∈ op.results, v ∉ i.results ∧ v ∉ i.uses) (huses : ∀ i ∈ ops, ∀ v ∈ op.uses, v ∉ i.results) :
    op.run (runAll ops s) = runAll ops (op.run s) := by
  induction ops generalizing s with
  | nil => rfl
  | cons i ops ih =>
    rw [runAll, runAll, ← Op.run_comm hpure (hresults i mem_cons_self) (huses i mem_cons_self)]
    exact ih (fun j hj => hresults j (mem_cons_of_mem _ hj)) fun j hj => huses j (mem_cons_of_mem _ hj)

/-! ### Single assignments -/

theorem mem_allUses (hop : op ∈ ops) (hv : v ∈ op.uses) : v ∈ Op.allUses ops := by
  induction ops with
  | nil => cases hop
  | cons o ops ih =>
    rw [Op.allUses, mem_append]
    rcases mem_cons.mp hop with rfl | hop
    · exact .inl hv
    · exact .inr (ih hop)

namespace Op

/-- Every value is defined once, and after the values that it is defined from. -/
def Ordered (ops : List (Op W D)) : Prop :=
  ops.Pairwise (fun i j => ∀ v ∈ j.results, v ∉ i.results ∧ v ∉ i.uses) ∧ ∀ i ∈ ops, ∀ v ∈ i.results, v ∉ i.uses

end Op

theorem eval_of_runAll {p : Prim D} {r : Value} {as : List Value} (hordered : Op.Ordered ops)
    (hop : Op.prim p r as ∈ ops) : (runAll ops (w, env)).2 r = p.eval (as.map (runAll ops (w, env)).2) := by
  induction ops generalizing w env with
  | nil => cases hop
  | cons op ops ih =>
    obtain ⟨hpairs, hself⟩ := hordered
    obtain ⟨hlater, hpairs⟩ := pairwise_cons.mp hpairs
    rcases mem_cons.mp hop with rfl | hop
    · have hframe : ∀ v, v ∈ r :: as → (runAll ops (w, update env r (p.eval (as.map env)))).2 v =
          update env r (p.eval (as.map env)) v := by
        intro v hv
        refine runAll_frame fun op hop hmem => ?_
        obtain ⟨hres, huse⟩ := hlater op hop v hmem
        rcases mem_cons.mp hv with rfl | hv
        · exact hres (mem_singleton_self v)
        · exact huse hv
      rw [runAll_cons, Op.run, hframe r mem_cons_self, update_self]
      refine congrArg _ (map_congr_left fun v hv => ?_)
      rw [hframe v (mem_cons_of_mem _ hv), update_of_ne]
      exact fun heq => hself _ mem_cons_self r (mem_singleton_self r) (heq ▸ hv)
    · exact ih ⟨hpairs, fun i hi => hself i (mem_cons_of_mem _ hi)⟩ hop

/-! ### Results that tell the operands -/

variable {x y z : Val D} {b : Bool} {n : Int} {type : IntType} {predicate : CmpIPredicate}

theorem eval_addI :
    Prim.eval (.addI type) [x, y] = .int n ↔ ∃ m k, x = .int m ∧ y = .int k ∧ type.wrap (m + k) = n := by
  constructor
  · intro h
    cases x <;> cases y <;> simp_all [Prim.eval]
  · rintro ⟨m, k, rfl, rfl, rfl⟩
    rfl

theorem eval_andI : Prim.eval .andI [x, y] = .bool b ↔ ∃ c d, x = .bool c ∧ y = .bool d ∧ (c && d) = b := by
  constructor
  · intro h
    cases x <;> cases y <;> simp_all [Prim.eval]
  · rintro ⟨c, d, rfl, rfl, rfl⟩
    rfl

theorem eval_xorI : Prim.eval .xorI [x, y] = .bool b ↔ ∃ c d, x = .bool c ∧ y = .bool d ∧ (c ^^ d) = b := by
  constructor
  · intro h
    cases x <;> cases y <;> simp_all [Prim.eval]
  · rintro ⟨c, d, rfl, rfl, rfl⟩
    rfl

theorem Val.isTrue_iff : x.isTrue = true ↔ x = .bool true := by
  cases x <;> simp [isTrue]

end EnzymeJax.Scf
