import Mathlib.Logic.Function.Iterate
import Mathlib.Data.List.Nodup
import Mathlib.Tactic.Common

/-!
# Straight-line code and loops over it

Instructions define one value each from values defined before. A loop carries values around such a body, as long as
such a condition holds. The carried values live under the names of the loop's results: entering a region binds its
arguments to them, and an iteration assigns them what the body yields. Two loops are compared by a relation
between the environments in which iterations are entered.
-/

namespace Straightline

open List Option Function

/-- An instruction: the value it defines, the operation and the values it uses. -/
structure Instr (O V : Type*) where
  result : V
  op : O
  operands : List V

/-- What the operations compute, and which values are true and false. -/
structure Semantics (O D : Type*) where
  eval : O → List D → Option D
  isTrue : D → Option Bool

/-- A carried value: its operand, its arguments in both regions, what the body yields for it, and its
result. -/
structure Carried (V : Type*) where
  operand : V
  condArg : V
  bodyArg : V
  yield : V
  result : V

def Carried.map {V W : Type*} (f : V → W) (c : Carried V) : Carried W :=
  ⟨f c.operand, f c.condArg, f c.bodyArg, f c.yield, f c.result⟩

structure Loop (O V : Type*) where
  carried : List (Carried V)
  condOps : List (Instr O V)
  test : V
  bodyOps : List (Instr O V)

/-- A loop with code before and after it. -/
structure Program (O V : Type*) where
  before : List (Instr O V)
  loop : Loop O V
  after : List (Instr O V)

variable {O V W D P : Type*} [DecidableEq V] [DecidableEq W]

/-! ### Parallel assignment -/

/-- All `dst p := val p` at once. -/
def assign (ps : List P) (dst : P → V) (val : P → D) (env : V → D) : V → D := fun v =>
  ((ps.find? fun p => dst p = v).map val).getD (env v)

section

variable {ps : List P} {dst : P → V} {val : P → D} {env : V → D} {v : V}

theorem assign_of_mem (hnodup : (ps.map dst).Nodup) {p : P} (hp : p ∈ ps) :
    assign ps dst val env (dst p) = val p := by
  induction ps with
  | nil => cases hp
  | cons q ps ih =>
    rw [map_cons, nodup_cons] at hnodup
    obtain ⟨hq, hnodup⟩ := hnodup
    rcases mem_cons.mp hp with rfl | hp
    · simp only [assign, find?_cons, decide_true, map_some, getD_some]
    · have hne : dst q ≠ dst p := fun heq => hq (heq ▸ mem_map_of_mem hp)
      simp only [assign, find?_cons, decide_eq_false hne]
      exact ih hnodup hp

theorem assign_of_ne (h : ∀ p ∈ ps, dst p ≠ v) : assign ps dst val env v = env v := by
  rw [assign, find?_eq_none.mpr fun p hp => by simpa using h p hp]
  rfl

theorem assign_comp {ι : V → W} (hι : Function.Injective ι) {env : W → D} (v : V) :
    assign ps (ι ∘ dst) val env (ι v) = assign ps dst val (env ∘ ι) v := by
  simp only [assign, comp_apply, hι.eq_iff]

theorem assign_map {Q : Type*} (f : Q → P) (qs : List Q) :
    assign (qs.map f) dst val env = assign qs (dst ∘ f) (val ∘ f) env := by
  funext v
  rw [assign, assign, find?_map, Option.map_map]
  rfl

theorem assign_rename {Q : Type*} {f : P → Q} {dst' : Q → W} {val' : Q → D} {env' : W → D} {ι : V → W}
    (hι : Function.Injective ι) (hdst : ∀ p, dst' (f p) = ι (dst p)) (hval : ∀ p ∈ ps, val' (f p) = val p)
    (henv : ∀ v, env' (ι v) = env v) (v : V) : assign (ps.map f) dst' val' env' (ι v) = assign ps dst val env v := by
  have hcomp : dst' ∘ f = ι ∘ dst := funext hdst
  rw [assign_map, hcomp, assign_comp hι, assign, assign]
  cases hfind : ps.find? fun p => dst p = v with
  | none => exact henv v
  | some p => exact hval p (mem_of_find?_eq_some hfind)

end

/-! ### Straight-line code -/

section

variable (S : Semantics O D)

def Instr.run (i : Instr O V) (env : V → D) : Option (V → D) :=
  (S.eval i.op (i.operands.map env)).map (Function.update env i.result)

def run : List (Instr O V) → (V → D) → Option (V → D)
  | [], env => some env
  | i :: is, env => (i.run S env).bind (run is)

variable {S} {is js : List (Instr O V)} {i : Instr O V} {env env' e : V → D}

theorem Instr.run_eq_some : i.run S env = some e ↔
    ∃ d, S.eval i.op (i.operands.map env) = some d ∧ e = update env i.result d := by
  rw [Instr.run, map_eq_some_iff]
  exact ⟨fun ⟨d, hd, he⟩ => ⟨d, hd, he.symm⟩, fun ⟨d, hd, he⟩ => ⟨d, hd, he.symm⟩⟩

@[simp] theorem run_nil : run S ([] : List (Instr O V)) env = some env := rfl

theorem run_cons : run S (i :: is) env = (i.run S env).bind (run S is) := rfl

theorem run_append : run S (is ++ js) env = (run S is env).bind (run S js) := by
  induction is generalizing env with
  | nil => rfl
  | cons i is ih =>
    rw [cons_append, run_cons, run_cons, bind_assoc]
    exact congrArg _ (funext fun e => ih)

theorem run_cons_eq_some : run S (i :: is) env = some e ↔
    ∃ d, S.eval i.op (i.operands.map env) = some d ∧ run S is (update env i.result d) = some e := by
  rw [run_cons, bind_eq_some_iff]
  constructor
  · intro ⟨mid, hmid, hrest⟩
    obtain ⟨d, hd, rfl⟩ := Instr.run_eq_some.mp hmid
    exact ⟨d, hd, hrest⟩
  · intro ⟨d, hd, hrest⟩
    exact ⟨_, Instr.run_eq_some.mpr ⟨d, hd, rfl⟩, hrest⟩

theorem exists_run_one {v : V} {o : O} {vs : List V} {d : D} (h : S.eval o (vs.map env) = some d) :
    ∃ e, run S [⟨v, o, vs⟩] env = some e ∧ e v = d :=
  ⟨_, run_cons_eq_some.mpr ⟨d, h, rfl⟩, update_self ..⟩

theorem run_frame (h : run S is env = some e) {v : V} (hv : ∀ i ∈ is, i.result ≠ v) : e v = env v := by
  induction is generalizing env with
  | nil => rw [some.inj h]
  | cons i is ih =>
    obtain ⟨d, -, hrest⟩ := run_cons_eq_some.mp h
    rw [ih hrest fun j hj => hv j (mem_cons_of_mem _ hj), update_of_ne (hv i mem_cons_self).symm]

/-- Every value is defined once, and after the values that it is defined from. -/
def Ordered (is : List (Instr O V)) : Prop :=
  is.Pairwise (fun i j => j.result ≠ i.result ∧ j.result ∉ i.operands) ∧ ∀ i ∈ is, i.result ∉ i.operands

instance (is : List (Instr O V)) : Decidable (Ordered is) := inferInstanceAs (Decidable (_ ∧ _))

omit [DecidableEq V] in
theorem Ordered.nodup (h : Ordered is) : (is.map Instr.result).Nodup :=
  pairwise_map.mpr (h.1.imp fun hne => hne.1.symm)

omit [DecidableEq V] in
theorem Ordered.eq_of_result_eq (h : Ordered is) (hi : i ∈ is) {j : Instr O V} (hj : j ∈ is)
    (heq : i.result = j.result) : i = j := inj_on_of_nodup_map h.nodup hi hj heq

/-- In code of single assignments each instruction is an equation between the values in the end. -/
theorem eval_of_run (hordered : Ordered is) (h : run S is env = some e) (hi : i ∈ is) :
    S.eval i.op (i.operands.map e) = some (e i.result) := by
  induction is generalizing env with
  | nil => cases hi
  | cons j is ih =>
    obtain ⟨hpairs, hself⟩ := hordered
    obtain ⟨hlater, hpairs⟩ := pairwise_cons.mp hpairs
    obtain ⟨d, hd, hrest⟩ := run_cons_eq_some.mp h
    rcases mem_cons.mp hi with rfl | hi
    · have hres : e i.result = d := by
        rw [run_frame hrest fun j hj => (hlater j hj).1, update_self]
      have hops : i.operands.map e = i.operands.map env := by
        refine map_congr_left fun v hv => ?_
        rw [run_frame hrest fun j hj => fun heq => (hlater j hj).2 (heq ▸ hv), update_of_ne]
        exact fun heq => hself i mem_cons_self (heq ▸ hv)
      rw [hops, hres, hd]
    · exact ih ⟨hpairs, fun k hk => hself k (mem_cons_of_mem _ hk)⟩ hrest hi

variable {scope : V → Prop} {define use : V → W} {out : P → V}

theorem run_congr (hordered : Ordered is) (hscope : ∀ i ∈ is, ∀ v ∈ i.operands, scope v)
    (henv : ∀ v, scope v → (∀ i ∈ is, i.result ≠ v) → env' v = env v) (h : run S is env = some e) :
    ∃ e', run S is env' = some e' ∧ ∀ v, scope v → e' v = e v := by
  induction is generalizing env env' with
  | nil =>
    cases h
    exact ⟨env', rfl, fun v hv => henv v hv fun i hi => absurd hi not_mem_nil⟩
  | cons i is ih =>
    obtain ⟨hpairs, hself⟩ := hordered
    obtain ⟨hlater, hpairs⟩ := pairwise_cons.mp hpairs
    obtain ⟨d, hd, hrest⟩ := run_cons_eq_some.mp h
    have hops : i.operands.map env' = i.operands.map env := by
      refine map_congr_left fun v hv => henv v (hscope i mem_cons_self v hv) fun j hj heq => ?_
      rcases mem_cons.mp hj with rfl | hj
      · exact hself j mem_cons_self (heq ▸ hv)
      · exact (hlater j hj).2 (heq ▸ hv)
    have henv' : ∀ v, scope v → (∀ j ∈ is, j.result ≠ v) → update env' i.result d v = update env i.result d v := by
      intro v hv hne
      by_cases heq : v = i.result
      · rw [heq, update_self, update_self]
      · rw [update_of_ne heq, update_of_ne heq]
        refine henv v hv fun j hj => ?_
        rcases mem_cons.mp hj with rfl | hj
        · exact Ne.symm heq
        · exact hne j hj
    obtain ⟨e', he', hagree⟩ := ih ⟨hpairs, fun j hj => hself j (mem_cons_of_mem _ hj)⟩
      (fun j hj => hscope j (mem_cons_of_mem _ hj)) henv' hrest
    exact ⟨e', run_cons_eq_some.mpr ⟨d, by rw [hops, hd], he'⟩, hagree⟩

theorem run_simulates {R : (V → D) → (W → D) → Prop} {replace : Instr O V → List (Instr O W)}
    (hstep : ∀ i ∈ is, ∀ env env' e, R env env' → i.run S env = some e →
      ∃ e', run S (replace i) env' = some e' ∧ R e e') {env' : W → D} (hR : R env env')
    (h : run S is env = some e) : ∃ e', run S (is.flatMap replace) env' = some e' ∧ R e e' := by
  induction is generalizing env env' with
  | nil =>
    cases h
    exact ⟨env', rfl, hR⟩
  | cons i is ih =>
    obtain ⟨mid, hmid, hrest⟩ := bind_eq_some_iff.mp h
    obtain ⟨mid', hmid', hR⟩ := hstep i mem_cons_self env env' mid hR hmid
    obtain ⟨e', he', hR⟩ := ih (fun j hj => hstep j (mem_cons_of_mem _ hj)) hR hrest
    refine ⟨e', ?_, hR⟩
    rw [flatMap_cons, run_append, hmid', bind_some, he']

/-- The instruction with other names for the value it defines and those it uses. -/
def Instr.rename (define use : V → W) (i : Instr O V) : Instr O W :=
  ⟨define i.result, i.op, i.operands.map use⟩

omit [DecidableEq V] in
theorem Instr.rename_id (i : Instr O V) : i.rename id id = i := by rw [Instr.rename, List.map_id, id]

omit [DecidableEq V] [DecidableEq W] in
theorem Instr.rename_rename {U : Type*} {define' : W → U} {use' : W → U} (i : Instr O V) :
    (i.rename define use).rename define' use' = i.rename (define' ∘ define) (use' ∘ use) := by
  rw [Instr.rename, Instr.rename, List.map_map]
  rfl

theorem run_rename (hscope : ∀ i ∈ is, ∀ v ∈ i.operands, scope v)
    (hnames : ∀ i ∈ is, ∀ v, scope v → (use v = define i.result ↔ v = i.result)) {env' : W → D}
    (henv : ∀ v, scope v → env' (use v) = env v) (h : run S is env = some e) :
    ∃ e', run S (is.map (Instr.rename define use)) env' = some e' ∧ ∀ v, scope v → e' (use v) = e v := by
  have hstep : ∀ i ∈ is, ∀ (env : V → D) (env' : W → D) e, (∀ v, scope v → env' (use v) = env v) →
      i.run S env = some e → ∃ e', run S [i.rename define use] env' = some e' ∧ ∀ v, scope v → e' (use v) = e v := by
    intro i hi env env' e henv hrun
    obtain ⟨d, hd, rfl⟩ := Instr.run_eq_some.mp hrun
    have hops : (i.operands.map use).map env' = i.operands.map env := by
      rw [List.map_map]
      exact map_congr_left fun v hv => henv v (hscope i hi v hv)
    refine ⟨update env' (define i.result) d, run_cons_eq_some.mpr ⟨d, ?_, rfl⟩, fun v hv => ?_⟩
    · rw [← hd, ← hops]
      rfl
    · by_cases heq : v = i.result
      · rw [(hnames i hi v hv).mpr heq, heq, update_self, update_self]
      · rw [update_of_ne ((hnames i hi v hv).not.mpr heq), update_of_ne heq, henv v hv]
  obtain ⟨e', he', hR⟩ := run_simulates hstep henv h
  rw [← map_eq_flatMap] at he'
  exact ⟨e', he', hR⟩

theorem run_rename_fresh (hordered : Ordered is) (hscope : ∀ i ∈ is, ∀ v ∈ i.operands, scope v)
    (hnames : ∀ i ∈ is, ∀ v, scope v → (use v = define i.result ↔ v = i.result)) {env' : W → D}
    (henv : ∀ v, scope v → (∀ i ∈ is, i.result ≠ v) → env' (use v) = env v) (h : run S is env = some e) :
    ∃ e', run S (is.map (Instr.rename define use)) env' = some e' ∧ ∀ v, scope v → e' (use v) = e v := by
  obtain ⟨e₀, he₀, hagree⟩ : ∃ e₀, run S is (fun v => env' (use v)) = some e₀ ∧ ∀ v, scope v → e₀ v = e v :=
    run_congr hordered hscope henv h
  obtain ⟨e', he', hagree'⟩ := run_rename hscope hnames (fun _ _ => rfl) he₀
  exact ⟨e', he', fun v hv => (hagree' v hv).trans (hagree v hv)⟩

variable {code : P → List (Instr O V)} {ps : List P}

theorem run_flatMap {I : List P → (V → D) → Prop}
    (hstep : ∀ p rest, p :: rest <:+ ps → ∀ e, I (p :: rest) e → ∃ e', run S (code p) e = some e' ∧ I rest e')
    (hI : I ps env) : ∃ e, run S (ps.flatMap code) env = some e ∧ I [] e := by
  induction ps generalizing env with
  | nil => exact ⟨env, rfl, hI⟩
  | cons p ps ih =>
    obtain ⟨mid, hmid, hI⟩ := hstep p ps suffix_rfl env hI
    obtain ⟨e, he, hI⟩ := ih (fun q rest hrest => hstep q rest (hrest.trans (suffix_cons p ps))) hI
    refine ⟨e, ?_, hI⟩
    rw [flatMap_cons, run_append, hmid, bind_some, he]

section

variable {G : V → D → Prop} {B : V → Prop} (hordered : Ordered is)
  (hscope : ∀ i ∈ is, ∀ v ∈ i.operands, B v ∨ ∃ j ∈ is, j.result = v)

include hordered hscope

theorem exists_run_of_good (hstep : ∀ i ∈ is, ∀ e : V → D, (∀ v ∈ i.operands, G v (e v)) →
      ∃ d, S.eval i.op (i.operands.map e) = some d ∧ G i.result d)
    (hbase : ∀ v, B v → (∀ i ∈ is, i.result ≠ v) ∧ G v (env v)) :
    ∃ e, run S is env = some e ∧ ∀ i ∈ is, G i.result (e i.result) := by
  induction is generalizing env B with
  | nil => exact ⟨env, rfl, fun i hi => absurd hi not_mem_nil⟩
  | cons i is ih =>
    obtain ⟨hpairs, hself⟩ := hordered
    obtain ⟨hlater, hpairs⟩ := pairwise_cons.mp hpairs
    have hops : ∀ v ∈ i.operands, G v (env v) := by
      intro v hv
      rcases hscope i mem_cons_self v hv with hbase' | ⟨j, hj, rfl⟩
      · exact (hbase v hbase').2
      · rcases mem_cons.mp hj with rfl | hj
        · exact absurd hv (hself j mem_cons_self)
        · exact absurd hv (hlater j hj).2
    obtain ⟨d, hd, hgood⟩ := hstep i mem_cons_self env hops
    obtain ⟨e, he, hresults⟩ : ∃ e, run S is (update env i.result d) = some e ∧ ∀ j ∈ is, G j.result (e j.result) := by
      refine ih (B := fun v => B v ∨ v = i.result) ⟨hpairs, fun j hj => hself j (mem_cons_of_mem _ hj)⟩ ?_
        (fun j hj => hstep j (mem_cons_of_mem _ hj)) ?_
      · intro j hj v hv
        rcases hscope j (mem_cons_of_mem _ hj) v hv with hbase' | ⟨j', hj', rfl⟩
        · exact .inl (.inl hbase')
        · rcases mem_cons.mp hj' with rfl | hj'
          · exact .inl (.inr rfl)
          · exact .inr ⟨j', hj', rfl⟩
      · rintro v (hbase' | rfl)
        · obtain ⟨hne, hgood'⟩ := hbase v hbase'
          rw [update_of_ne (hne i mem_cons_self).symm]
          exact ⟨fun j hj => hne j (mem_cons_of_mem _ hj), hgood'⟩
        · rw [update_self]
          exact ⟨fun j hj => (hlater j hj).1, hgood⟩
    refine ⟨e, run_cons_eq_some.mpr ⟨d, hd, he⟩, fun j hj => ?_⟩
    rcases mem_cons.mp hj with rfl | hj
    · rw [run_frame he fun j' hj' => (hlater j' hj').1, update_self]
      exact hgood
    · exact hresults j hj

/-- In code that has run every value is good, if every instruction makes good values of good operands. -/
theorem good_of_run
    (hstep : ∀ i ∈ is, ∀ (e : V → D) d, (∀ v ∈ i.operands, G v (e v)) → S.eval i.op (i.operands.map e) = some d →
      G i.result d) (hbase : ∀ v, B v → G v (env v)) (h : run S is env = some e) (v : V)
    (hv : B v ∨ ∃ i ∈ is, i.result = v) : G v (e v) := by
  induction is generalizing env B with
  | nil =>
    cases h
    exact hbase v (hv.resolve_right fun ⟨i, hi, _⟩ => absurd hi not_mem_nil)
  | cons i is ih =>
    obtain ⟨hpairs, hself⟩ := hordered
    obtain ⟨hlater, hpairs⟩ := pairwise_cons.mp hpairs
    obtain ⟨d, hd, hrest⟩ := run_cons_eq_some.mp h
    have hops : ∀ v ∈ i.operands, G v (env v) := by
      intro v hv
      rcases hscope i mem_cons_self v hv with hbase' | ⟨j, hj, rfl⟩
      · exact hbase v hbase'
      · rcases mem_cons.mp hj with rfl | hj
        · exact absurd hv (hself j mem_cons_self)
        · exact absurd hv (hlater j hj).2
    refine ih (B := fun v => B v ∨ v = i.result) ⟨hpairs, fun j hj => hself j (mem_cons_of_mem _ hj)⟩ ?_
      (fun j hj => hstep j (mem_cons_of_mem _ hj)) (fun v hv => ?_) hrest ?_
    · intro j hj v hv
      rcases hscope j (mem_cons_of_mem _ hj) v hv with hbase' | ⟨j', hj', rfl⟩
      · exact .inl (.inl hbase')
      · rcases mem_cons.mp hj' with rfl | hj'
        · exact .inl (.inr rfl)
        · exact .inr ⟨j', hj', rfl⟩
    · by_cases heq : v = i.result
      · rw [heq, update_self]
        exact hstep i mem_cons_self env d hops hd
      · rw [update_of_ne heq]
        exact hbase v (hv.resolve_right heq)
    · rcases hv with hv | ⟨j, hj, rfl⟩
      · exact .inl (.inl hv)
      · rcases mem_cons.mp hj with rfl | hj
        · exact .inl (.inr rfl)
        · exact .inr ⟨j, hj, rfl⟩

end

variable {keep : V → Prop}

theorem exists_run_flatMap_own {A : P → V → Prop} {Q : P → (V → D) → Prop}
    (hQ : ∀ p ∈ ps, ∀ e e', (∀ v, A p v → e' v = e v) → Q p e → Q p e')
    (hcode : ∀ p ∈ ps, ∀ e, (∀ v, keep v → e v = env v) → ∃ e', run S (code p) e = some e' ∧ Q p e')
    (hkeep : ∀ p ∈ ps, ∀ i ∈ code p, ¬keep i.result) (hother : ps.Pairwise fun p q => ∀ i ∈ code q, ¬A p i.result) :
    ∃ e, run S (ps.flatMap code) env = some e ∧ (∀ v, keep v → e v = env v) ∧ ∀ p ∈ ps, Q p e := by
  induction ps generalizing env with
  | nil => exact ⟨env, rfl, fun _ _ => rfl, fun p hp => absurd hp not_mem_nil⟩
  | cons p ps ih =>
    obtain ⟨hp, hother⟩ := pairwise_cons.mp hother
    obtain ⟨mid, hmid, hval⟩ := hcode p mem_cons_self env fun _ _ => rfl
    have hsame : ∀ v, keep v → mid v = env v := fun v hv =>
      run_frame hmid fun i hi heq => hkeep p mem_cons_self i hi (heq ▸ hv)
    obtain ⟨e, he, hold, hvals⟩ := ih (fun q hq => hQ q (mem_cons_of_mem _ hq))
      (fun q hq e he => hcode q (mem_cons_of_mem _ hq) e fun v hv => (he v hv).trans (hsame v hv))
      (fun q hq => hkeep q (mem_cons_of_mem _ hq)) hother
    refine ⟨e, by rw [flatMap_cons, run_append, hmid, bind_some, he],
      fun v hv => (hold v hv).trans (hsame v hv), fun q hq => ?_⟩
    rcases mem_cons.mp hq with rfl | hq
    · refine hQ q mem_cons_self mid e (fun v hv => run_frame he fun i hi heq => ?_) hval
      obtain ⟨q', hq', hi⟩ := mem_flatMap.mp hi
      exact hp q' hq' i hi (heq ▸ hv)
    · exact hvals q hq

theorem exists_run_flatMap_of {Q : P → D → Prop}
    (hcode : ∀ p ∈ ps, ∀ e, (∀ v, keep v → e v = env v) → ∃ e', run S (code p) e = some e' ∧ Q p (e' (out p)))
    (hkeep : ∀ p ∈ ps, ∀ i ∈ code p, ¬keep i.result) (hother : ps.Pairwise fun p q => ∀ i ∈ code q, i.result ≠ out p) :
    ∃ e, run S (ps.flatMap code) env = some e ∧ (∀ v, keep v → e v = env v) ∧ ∀ p ∈ ps, Q p (e (out p)) :=
  exists_run_flatMap_own (A := fun p v => v = out p) (fun p _ e e' h hQ => by rwa [h _ rfl]) hcode hkeep hother

theorem exists_run_flatMap {val : P → D}
    (hcode : ∀ p ∈ ps, ∀ e, (∀ v, keep v → e v = env v) → ∃ e', run S (code p) e = some e' ∧ e' (out p) = val p)
    (hkeep : ∀ p ∈ ps, ∀ i ∈ code p, ¬keep i.result) (hother : ps.Pairwise fun p q => ∀ i ∈ code q, i.result ≠ out p) :
    ∃ e, run S (ps.flatMap code) env = some e ∧ (∀ v, keep v → e v = env v) ∧ ∀ p ∈ ps, e (out p) = val p :=
  exists_run_flatMap_of (Q := fun p x => x = val p) hcode hkeep hother

theorem run_replaced (keep : V → Prop) (base : V → D) (hordered : Ordered is) (h : run S is env = some e)
    (hkeep : ∀ i ∈ is, ¬keep i.result) (henv : ∀ v, keep v → env v = base v)
    (hsame : Forall₂ (fun i j : Instr O V => j.result = i.result ∧ ∀ mid : V → D, (∀ v, keep v → mid v = base v) →
      (∀ v ∈ i.operands, mid v = e v) → S.eval j.op (j.operands.map mid) = S.eval i.op (i.operands.map mid)) is js) :
    run S js env = some e := by
  induction hsame generalizing env with
  | nil => exact h
  | @cons i j is js hsame _ ih =>
    obtain ⟨hres, heval⟩ := hsame
    obtain ⟨hpairs, hself⟩ := hordered
    obtain ⟨hlater, hpairs⟩ := pairwise_cons.mp hpairs
    obtain ⟨d, hd, hrest⟩ := run_cons_eq_some.mp h
    have hops : ∀ v ∈ i.operands, env v = e v := by
      intro v hv
      rw [run_frame hrest fun k hk heq => (hlater k hk).2 (heq ▸ hv), update_of_ne]
      exact fun heq => hself i mem_cons_self (heq ▸ hv)
    refine run_cons_eq_some.mpr ⟨d, (heval env henv hops).trans hd, ?_⟩
    rw [hres]
    refine ih ⟨hpairs, fun k hk => hself k (mem_cons_of_mem _ hk)⟩ hrest
      (fun k hk => hkeep k (mem_cons_of_mem _ hk)) fun v hv => ?_
    have hne : v ≠ i.result := fun heq => hkeep i mem_cons_self (heq ▸ hv)
    rw [update_of_ne hne, henv v hv]

theorem exists_of_run_flatMap (hkeep : ∀ p ∈ ps, ∀ i ∈ code p, ¬keep i.result)
    (hother : ps.Pairwise fun p q => ∀ i ∈ code q, i.result ≠ out p)
    (h : run S (ps.flatMap code) env = some e) {p : P} (hp : p ∈ ps) :
    ∃ e₀ e₁, (∀ v, keep v → e₀ v = env v) ∧ run S (code p) e₀ = some e₁ ∧ e₁ (out p) = e (out p) := by
  induction ps generalizing env with
  | nil => cases hp
  | cons q ps ih =>
    obtain ⟨hq, hother⟩ := pairwise_cons.mp hother
    rw [flatMap_cons, run_append] at h
    obtain ⟨mid, hmid, hrest⟩ := bind_eq_some_iff.mp h
    rcases mem_cons.mp hp with rfl | hp
    · refine ⟨env, mid, fun _ _ => rfl, hmid, (run_frame hrest fun i hi => ?_).symm⟩
      obtain ⟨q', hq', hi⟩ := mem_flatMap.mp hi
      exact hq q' hq' i hi
    · obtain ⟨e₀, e₁, hold, hrun, hval⟩ := ih (fun q hq => hkeep q (mem_cons_of_mem _ hq)) hother hrest hp
      refine ⟨e₀, e₁, fun v hv => ?_, hrun, hval⟩
      rw [hold v hv]
      exact run_frame hmid fun i hi heq => hkeep q mem_cons_self i hi (heq ▸ hv)

end

/-! ### Loops -/

variable {R : Nat → (V → D) → (W → D) → Prop}

namespace Loop

variable (S : Semantics O D) (l : Loop O V)

def start (env : V → D) : V → D := assign l.carried Carried.result (fun c => env c.operand) env

def condEnv (env : V → D) : Option (V → D) :=
  run S l.condOps (assign l.carried Carried.condArg (fun c => env c.result) env)

def bodyEnv (env : V → D) : Option (V → D) :=
  run S l.bodyOps (assign l.carried Carried.bodyArg (fun c => env c.result) env)

def continues (env : V → D) : Option Bool := (l.condEnv S env).bind fun e => S.isTrue (e l.test)

def next (env : V → D) : Option (V → D) :=
  (l.bodyEnv S env).map fun e => assign l.carried Carried.result (fun c => e c.yield) env

/-- The environment on entering iteration `n`. -/
def entering (env : V → D) : Nat → Option (V → D)
  | 0 => some (l.start env)
  | n + 1 => (entering env n).bind fun σ => (l.continues S σ).bind fun b => if b then l.next S σ else none

/-- The environment after the loop, if it runs `n` iterations. -/
def exits (env : V → D) (n : Nat) : Option (V → D) :=
  (l.entering S env n).bind fun σ => (l.continues S σ).bind fun b => if b then none else some σ

variable {S l} {env σ σ' : V → D} {k n : Nat}

@[simp] theorem entering_zero : l.entering S env 0 = some (l.start env) := rfl

theorem entering_succ_eq_some : l.entering S env (n + 1) = some σ' ↔
    ∃ σ, l.entering S env n = some σ ∧ l.continues S σ = some true ∧ l.next S σ = some σ' := by
  rw [entering, bind_eq_some_iff]
  refine exists_congr fun σ => and_congr_right fun _ => ?_
  rw [bind_eq_some_iff]
  constructor
  · rintro ⟨b, hb, hnext⟩
    cases b with
    | true => exact ⟨hb, hnext⟩
    | false => cases hnext
  · intro ⟨hb, hnext⟩
    exact ⟨true, hb, hnext⟩

theorem exits_eq_some : l.exits S env n = some σ ↔
    l.entering S env n = some σ ∧ l.continues S σ = some false := by
  rw [exits, bind_eq_some_iff]
  constructor
  · intro ⟨τ, hτ, h⟩
    obtain ⟨b, hb, h⟩ := bind_eq_some_iff.mp h
    cases b with
    | true => cases h
    | false =>
      cases h
      exact ⟨hτ, hb⟩
  · intro ⟨hσ, hb⟩
    exact ⟨σ, hσ, by rw [hb]; rfl⟩

theorem exists_executed (h : l.entering S env n = some σ) (hk : k < n) : ∃ σ σ',
    l.entering S env k = some σ ∧ l.continues S σ = some true ∧ l.next S σ = some σ' ∧
      l.entering S env (k + 1) = some σ' := by
  induction n generalizing σ with
  | zero => cases hk
  | succ n ih =>
    obtain ⟨τ, hτ, htest, hnext⟩ := entering_succ_eq_some.mp h
    rcases Nat.lt_succ_iff_lt_or_eq.mp hk with hk | rfl
    · exact ih hτ hk
    · exact ⟨τ, σ, hτ, htest, hnext, h⟩

theorem entering_outside (h : l.entering S env n = some σ) {v : V} (hv : ∀ c ∈ l.carried, c.result ≠ v) :
    σ v = env v := by
  induction n generalizing σ with
  | zero =>
    cases h
    exact assign_of_ne hv
  | succ n ih =>
    obtain ⟨τ, hτ, -, hnext⟩ := entering_succ_eq_some.mp h
    obtain ⟨e, -, rfl⟩ := map_eq_some_iff.mp hnext
    rw [assign_of_ne hv, ih hτ]

theorem entering_simulates {l' : Loop O W} {env' : W → D} (hstart : R 0 (l.start env) (l'.start env'))
    (hstep : ∀ k < n, ∀ σ σ' τ, l.entering S env k = some σ → R k σ τ → l.continues S σ = some true →
      l.next S σ = some σ' → l'.continues S τ = some true ∧ ∃ τ', l'.next S τ = some τ' ∧ R (k + 1) σ' τ')
    (hk : k ≤ n) (h : l.entering S env k = some σ) : ∃ τ, l'.entering S env' k = some τ ∧ R k σ τ := by
  induction k generalizing σ with
  | zero =>
    cases h
    exact ⟨_, rfl, hstart⟩
  | succ k ih =>
    obtain ⟨σ₀, hσ₀, htest, hnext⟩ := entering_succ_eq_some.mp h
    obtain ⟨τ, hτ, hR⟩ := ih (Nat.le_of_succ_le hk) hσ₀
    obtain ⟨htest', τ', hnext', hR'⟩ := hstep k hk σ₀ σ τ hσ₀ hR htest hnext
    exact ⟨τ', entering_succ_eq_some.mpr ⟨τ, hτ, htest', hnext'⟩, hR'⟩

theorem value_ne_start (c : V) (test : D → Bool) (step : D → D)
    (htest : ∀ k σ b, l.entering S env k = some σ → l.continues S σ = some b → test (σ c) = b)
    (hstep : ∀ k σ σ', l.entering S env k = some σ → l.next S σ = some σ' → σ' c = step (σ c))
    (h : l.exits S env n = some σ') (hpos : 0 < k) (hk : k ≤ n) (hσ : l.entering S env k = some σ) :
    σ c ≠ l.start env c := by
  obtain ⟨hend, hfalse⟩ := exits_eq_some.mp h
  have hval : ∀ m σ, l.entering S env m = some σ → σ c = step^[m] (l.start env c) := by
    intro m
    induction m with
    | zero =>
      intro σ hσ
      cases hσ
      rfl
    | succ m ih =>
      intro σ hσ
      obtain ⟨τ, hτ, -, hnext⟩ := entering_succ_eq_some.mp hσ
      rw [hstep m τ σ hτ hnext, ih τ hτ, iterate_succ_apply']
  intro heq
  -- the end of the loop is then `k` iterations earlier as well
  obtain ⟨τ, -, hτ, htrue, -⟩ := exists_executed hend (show n - k < n by omega)
  have hperiod : step^[n] (l.start env c) = step^[n - k] (l.start env c) := by
    rw [hval k σ hσ] at heq
    rw [← Nat.sub_add_cancel hk, iterate_add_apply, heq, Nat.sub_add_cancel hk]
  have hsame : σ' c = τ c := by rw [hval n σ' hend, hval _ τ hτ, hperiod]
  have htest' := htest _ τ true hτ htrue
  rw [← hsame, htest n σ' false hend hfalse] at htest'
  cases htest'

end Loop

namespace Program

variable (S : Semantics O D) (p : Program O V)

/-- The environment on entering iteration `n`. -/
def entering (env : V → D) (n : Nat) : Option (V → D) :=
  (run S p.before env).bind fun e => p.loop.entering S e n

/-- The environment after everything, if the loop runs `n` iterations. -/
def exits (env : V → D) (n : Nat) : Option (V → D) :=
  (run S p.before env).bind fun e => (p.loop.exits S e n).bind (run S p.after)

end Program

/-- Where the uses of the values of a loop are in a program that replaces it. -/
structure Uses (V W : Type*) where
  cond : V → W
  body : V → W
  after : V → W

/-- The program has the values of the loop in all iterations up to `N`, and after the loop if it ends by
then. -/
structure PreservesTo (S : Semantics O D) (l : Loop O V) (p : Program O W) (uses : Uses V W) (env : V → D)
    (env' : W → D) (N : Nat) : Prop where
  cond : ∀ k ≤ N, ∀ σ e, l.entering S env k = some σ → l.condEnv S σ = some e →
    ∃ τ e', p.entering S env' k = some τ ∧ p.loop.condEnv S τ = some e' ∧
      ∀ v, (∀ c ∈ l.carried, c.result ≠ v) → e' (uses.cond v) = e v
  body : ∀ k ≤ N, ∀ σ e, l.entering S env k = some σ → l.continues S σ = some true → l.bodyEnv S σ = some e →
    ∃ τ e', p.entering S env' k = some τ ∧ p.loop.bodyEnv S τ = some e' ∧
      ∀ v, (∀ c ∈ l.carried, c.result ≠ v) → e' (uses.body v) = e v
  exits : ∀ n ≤ N, ∀ σ, l.exits S env n = some σ → ∃ τ, p.exits S env' n = some τ ∧ ∀ v, τ (uses.after v) = σ v

/-- In the end of the conditions and bodies of all iterations up to `N`, and after the loop if it ends by then, the
values of the program are related to those of the loop. -/
structure SimulatesTo (S : Semantics O D) (l : Loop O V) (p : Program O W) (env : V → D) (env' : W → D) (N : Nat)
    (atCond atBody atEnd : Nat → (V → D) → (W → D) → Prop) : Prop where
  cond : ∀ k ≤ N, ∀ σ e, l.entering S env k = some σ → l.condEnv S σ = some e →
    ∃ τ e', p.entering S env' k = some τ ∧ p.loop.condEnv S τ = some e' ∧ atCond k e e'
  body : ∀ k ≤ N, ∀ σ e, l.entering S env k = some σ → l.continues S σ = some true → l.bodyEnv S σ = some e →
    ∃ τ e', p.entering S env' k = some τ ∧ p.loop.bodyEnv S τ = some e' ∧ atBody k e e'
  exits : ∀ n ≤ N, ∀ σ, l.exits S env n = some σ → ∃ τ, p.exits S env' n = some τ ∧ atEnd n σ τ

/-- The values that the regions can use are the same. -/
def Loop.Agrees (l : Loop O V) (use : V → W) (e : V → D) (e' : W → D) : Prop :=
  ∀ v, (∀ c ∈ l.carried, c.result ≠ v) → e' (use v) = e v

section

variable {S : Semantics O D} {l : Loop O V} {p : Program O W}

variable {uses : Uses V W} {env : V → D} {env' base : W → D} {N : Nat}

theorem SimulatesTo.preservesTo
    (h : SimulatesTo S l p env env' N (fun _ => l.Agrees uses.cond) (fun _ => l.Agrees uses.body)
      fun _ σ τ => ∀ v, τ (uses.after v) = σ v) :
    PreservesTo S l p uses env env' N := ⟨h.cond, h.body, h.exits⟩

theorem simulatesTo_of_relation {atCond atBody atEnd : Nat → (V → D) → (W → D) → Prop}
    (hbefore : run S p.before env' = some base) (hstart : R 0 (l.start env) (p.loop.start base))
    (hcond : ∀ k ≤ N, ∀ σ τ e, l.entering S env k = some σ → R k σ τ → l.condEnv S σ = some e →
      ∃ e', p.loop.condEnv S τ = some e' ∧ e' p.loop.test = e l.test ∧ atCond k e e')
    (hbody : ∀ k ≤ N, ∀ σ τ e, l.entering S env k = some σ → R k σ τ → l.continues S σ = some true →
      l.bodyEnv S σ = some e → ∃ e', p.loop.bodyEnv S τ = some e' ∧ atBody k e e' ∧
        (k < N → R (k + 1) (assign l.carried Carried.result (fun c => e c.yield) σ)
          (assign p.loop.carried Carried.result (fun c => e' c.yield) τ)))
    (hafter : ∀ n ≤ N, ∀ σ τ, l.exits S env n = some σ → R n σ τ → ∃ τ', run S p.after τ = some τ' ∧ atEnd n σ τ') :
    SimulatesTo S l p env env' N atCond atBody atEnd := by
  have hcontinues : ∀ k ≤ N, ∀ σ τ b, l.entering S env k = some σ → R k σ τ → l.continues S σ = some b →
      p.loop.continues S τ = some b := by
    intro k hk σ τ b hσ hR hb
    obtain ⟨e, he, htest⟩ := bind_eq_some_iff.mp hb
    obtain ⟨e', he', hsame, -⟩ := hcond k hk σ τ e hσ hR he
    rw [Loop.continues, he', bind_some, hsame, htest]
  have hentering : ∀ k ≤ N, ∀ σ, l.entering S env k = some σ →
      ∃ τ, p.entering S env' k = some τ ∧ p.loop.entering S base k = some τ ∧ R k σ τ := by
    intro k hk σ hσ
    obtain ⟨τ, hτ, hR⟩ := Loop.entering_simulates hstart (fun j hj σ σ' τ hσ hR htrue hnext => by
      obtain ⟨e, he, rfl⟩ := map_eq_some_iff.mp hnext
      obtain ⟨e', he', -, hR'⟩ := hbody j (Nat.le_of_lt hj) σ τ e hσ hR htrue he
      exact ⟨hcontinues j (Nat.le_of_lt hj) σ τ true hσ hR htrue, _, by rw [Loop.next, he', map_some], hR' hj⟩) hk hσ
    exact ⟨τ, by rw [Program.entering, hbefore, bind_some, hτ], hτ, hR⟩
  refine ⟨fun k hk σ e hσ he => ?_, fun k hk σ e hσ htrue he => ?_, fun n hn σ hσ => ?_⟩
  · obtain ⟨τ, hτ, -, hR⟩ := hentering k hk σ hσ
    obtain ⟨e', he', -, hagree⟩ := hcond k hk σ τ e hσ hR he
    exact ⟨τ, e', hτ, he', hagree⟩
  · obtain ⟨τ, hτ, -, hR⟩ := hentering k hk σ hσ
    obtain ⟨e', he', hagree, -⟩ := hbody k hk σ τ e hσ hR htrue he
    exact ⟨τ, e', hτ, he', hagree⟩
  · obtain ⟨hend, hfalse⟩ := Loop.exits_eq_some.mp hσ
    obtain ⟨τ, -, hτ, hR⟩ := hentering n hn σ hend
    obtain ⟨τ', hτ', hagree⟩ := hafter n hn σ τ hσ hR
    refine ⟨τ', ?_, hagree⟩
    rw [Program.exits, hbefore, bind_some,
      Loop.exits_eq_some.mpr ⟨hτ, hcontinues n hn σ τ false hend hR hfalse⟩, bind_some, hτ']

theorem preservesTo_of_simulates (hbefore : run S p.before env' = some base)
    (hstart : R 0 (l.start env) (p.loop.start base))
    (hcond : ∀ k ≤ N, ∀ σ τ e, l.entering S env k = some σ → R k σ τ → l.condEnv S σ = some e →
      ∃ e', p.loop.condEnv S τ = some e' ∧ e' p.loop.test = e l.test ∧
        ∀ v, (∀ c ∈ l.carried, c.result ≠ v) → e' (uses.cond v) = e v)
    (hbody : ∀ k ≤ N, ∀ σ τ e, l.entering S env k = some σ → R k σ τ → l.continues S σ = some true →
      l.bodyEnv S σ = some e → ∃ e', p.loop.bodyEnv S τ = some e' ∧
        (∀ v, (∀ c ∈ l.carried, c.result ≠ v) → e' (uses.body v) = e v) ∧
        (k < N → R (k + 1) (assign l.carried Carried.result (fun c => e c.yield) σ)
          (assign p.loop.carried Carried.result (fun c => e' c.yield) τ)))
    (hafter : ∀ n ≤ N, ∀ σ τ, l.exits S env n = some σ → R n σ τ →
      ∃ τ', run S p.after τ = some τ' ∧ ∀ v, τ' (uses.after v) = σ v) : PreservesTo S l p uses env env' N :=
  (simulatesTo_of_relation hbefore hstart hcond hbody hafter).preservesTo

end

end Straightline
