import EnzymeJax.Library.Loop
import Mathlib.Data.Finset.Basic
import Mathlib.Algebra.BigOperators.Group.Finset.Basic
import Mathlib.Data.Set.Finite.Basic
import Mathlib.Tactic

/-!
# Guaranteed results

The query engine of the analyses of values. A query explores the values that the one asked for depends on,
with the dependencies that each pending value waits for, and the values that wait for a dependency.
-/

namespace EnzymeJax

open List Option Function

/-- What is known of the values: the cache of the analysis, and the attributes in the program. -/
structure GuaranteedResultAnalysis (V : Type*) where
  valueCache : V → Option Bool
  attr : V → Option Bool

namespace GuaranteedResultAnalysis

variable {V : Type*}

inductive State (V : Type*)
  | notGuaranteed
  | guaranteed
  | pending (localtodo : List V)

section

variable [DecidableEq V] (hasOp : V → Bool)

/-- The values of an operation have an attribute, block arguments have none. -/
def setGuaranteedInIR (v : V) (guaranteed : Bool) (a : GuaranteedResultAnalysis V) :
    GuaranteedResultAnalysis V :=
  if hasOp v then { a with attr := Function.update a.attr v (some guaranteed) } else a

def setCache (v : V) (guaranteed : Bool) (a : GuaranteedResultAnalysis V) :
    GuaranteedResultAnalysis V :=
  { a with valueCache := Function.update a.valueCache v (some guaranteed) }

@[simp] theorem setCache_self (v : V) (b : Bool) (a : GuaranteedResultAnalysis V) :
    (setCache v b a).valueCache v = some b := by
  simp [setCache]

theorem setCache_of_ne {u v : V} (h : u ≠ v) (b : Bool) (a : GuaranteedResultAnalysis V) :
    (setCache v b a).valueCache u = a.valueCache u := by
  simp [setCache, h]

def lookup : Bool → State V
  | true => .guaranteed
  | false => .notGuaranteed

variable (localGuaranteed : GuaranteedResultAnalysis V → V →
  Option (State V × GuaranteedResultAnalysis V))

def localGuaranteedWithSetAttr (a : GuaranteedResultAnalysis V) (v : V) :
    Option (State V × GuaranteedResultAnalysis V) :=
  match a.attr v with
  | some guaranteed => some (lookup guaranteed, a)
  | none => (localGuaranteed a v).map fun (state, a) =>
    match state with
    | .guaranteed => (state, setGuaranteedInIR hasOp v true a)
    | .notGuaranteed => (state, setGuaranteedInIR hasOp v false a)
    | .pending _ => (state, a)

/-- The operands that are not in the cache, unless one is in it and not guaranteed. -/
def uncached (valueCache : V → Option Bool) (skip : V → Bool) : List V → Option (List V)
  | [] => some []
  | operand :: operands =>
    if skip operand then uncached valueCache skip operands
    else match valueCache operand with
      | some true => uncached valueCache skip operands
      | some false => none
      | none => (uncached valueCache skip operands).map (operand :: ·)

def recursivelyCheckOperands (valueCache : V → Option Bool) (skip : V → Bool) (operands : List V) :
    State V :=
  match uncached valueCache skip operands with
  | none => .notGuaranteed
  | some [] => .guaranteed
  | some localtodo => .pending localtodo

structure Query (V : Type*) where
  analysis : GuaranteedResultAnalysis V
  todo : List V
  seen : V → Option (Finset V)
  reverseSeen : V → List V
  result : Option Bool

/-- Nothing that needs a value that is not guaranteed is. -/
def markNotGuaranteedStep : Query V × List V → Option (Query V × List V)
  | (q, []) => some (q, [])
  | (q, rcur :: rtodo) =>
    if (q.analysis.valueCache rcur).isSome then some (q, rtodo)
    else some ({ q with
      analysis := setGuaranteedInIR hasOp rcur false (setCache rcur false q.analysis)
      reverseSeen := Function.update q.reverseSeen rcur [] }, (q.reverseSeen rcur).reverse ++ rtodo)

/-- One dependency less for a value that waits. It has to be among those seen. -/
def resolve (rcur : V) (s : (V → Option (Finset V)) × List V) (next : V) :
    Option ((V → Option (Finset V)) × List V) :=
  (s.1 next).map fun pending => (Function.update s.1 next (some (pending.erase rcur)),
    if pending.erase rcur = ∅ then next :: s.2 else s.2)

def markGuaranteedStep : Query V × List V → Option (Query V × List V)
  | (q, []) => some (q, [])
  | (q, rcur :: rtodo) =>
    if (q.analysis.valueCache rcur).isSome then some (q, rtodo)
    else ((q.reverseSeen rcur).foldlM (resolve rcur) (Function.update q.seen rcur none, rtodo)).map fun (seen, rtodo) =>
        ({ q with
          analysis := setCache rcur true q.analysis
          seen := seen
          reverseSeen := Function.update q.reverseSeen rcur [] }, rtodo)

variable (fuel : Nat)

def queryStep (q : Query V) : Option (Query V) :=
  match q.todo with
  | [] => some q
  | cur :: todo =>
    if (q.seen cur).isSome then some { q with todo := todo }
    else
      let status := match q.analysis.valueCache cur with
        | some guaranteed => some (lookup guaranteed, q.analysis)
        | none => localGuaranteedWithSetAttr hasOp localGuaranteed q.analysis cur
      status.bind fun (status, analysis) =>
        let q := { q with analysis := analysis, todo := todo }
        match status with
        | .notGuaranteed =>
          (Loop.run (fun s => !s.2.isEmpty) (markNotGuaranteedStep hasOp) fuel (q, [cur])).map
            fun (q, _) => { q with
              analysis := setGuaranteedInIR hasOp cur false q.analysis
              result := some false }
        | .guaranteed =>
          (Loop.run (fun s => !s.2.isEmpty) markGuaranteedStep fuel (q, [cur])).map Prod.fst
        | .pending localtodo =>
          if localtodo = [] then none
          else some { q with
            todo := todo ++ localtodo
            seen := Function.update q.seen cur (some localtodo.toFinset)
            reverseSeen := fun v => q.reverseSeen v ++ List.replicate (localtodo.count v) cur }

/-- Whether a value is guaranteed, and what is known afterwards. -/
def guaranteed (a : GuaranteedResultAnalysis V) (value : V) :
    Option (Bool × GuaranteedResultAnalysis V) :=
  match a.valueCache value with
  | some guaranteed => some (guaranteed, a)
  | none => match a.attr value with
    | some guaranteed => some (guaranteed, a)
    | none =>
      (Loop.run (fun q => !q.todo.isEmpty && q.result.isNone) (queryStep hasOp localGuaranteed fuel) fuel
        ⟨a, [value], fun _ => none, fun _ => [], none⟩).map fun q =>
        match q.result with
        | some guaranteed => (guaranteed, q.analysis)
        | none =>
          let analysis : GuaranteedResultAnalysis V :=
            { valueCache := fun v => if (q.seen v).isSome then some true else q.analysis.valueCache v
              attr := fun v => if (q.seen v).isSome && hasOp v then some true else q.analysis.attr v }
          match analysis.valueCache value with
          | some guaranteed => (guaranteed, setGuaranteedInIR hasOp value guaranteed analysis)
          | none => (false, analysis)

end

theorem uncached_spec {valueCache : V → Option Bool} {skip : V → Bool} {operands : List V} :
    match uncached valueCache skip operands with
    | none => ∃ d ∈ operands.filter (fun v => !skip v), valueCache d = some false
    | some localtodo => localtodo.Sublist (operands.filter fun v => !skip v) ∧
        ∀ d ∈ operands.filter (fun v => !skip v), d ∈ localtodo ∨ valueCache d = some true := by
  induction operands with
  | nil => exact ⟨.slnil, nofun⟩
  | cons operand operands ih =>
    rw [uncached]
    by_cases hskip : skip operand = true
    · rw [if_pos hskip, filter_cons_of_neg (by simp [hskip])]
      exact ih
    · rw [if_neg hskip, filter_cons_of_pos (by simp [hskip])]
      cases hcache : valueCache operand with
      | none =>
        cases huncached : uncached valueCache skip operands with
        | none =>
          rw [huncached] at ih
          obtain ⟨d, hd, hfalse⟩ := ih
          exact ⟨d, mem_cons_of_mem _ hd, hfalse⟩
        | some localtodo =>
          rw [huncached] at ih
          refine ⟨ih.1.cons_cons _, fun d hd => ?_⟩
          obtain rfl | hd := mem_cons.mp hd
          · exact .inl mem_cons_self
          · exact (ih.2 d hd).imp_left (mem_cons_of_mem _)
      | some guaranteed =>
        cases guaranteed with
        | false => exact ⟨operand, mem_cons_self, hcache⟩
        | true =>
          dsimp only
          cases huncached : uncached valueCache skip operands with
          | none =>
            rw [huncached] at ih
            obtain ⟨d, hd, hfalse⟩ := ih
            exact ⟨d, mem_cons_of_mem _ hd, hfalse⟩
          | some localtodo =>
            rw [huncached] at ih
            refine ⟨ih.1.cons _, fun d hd => ?_⟩
            obtain rfl | hd := mem_cons.mp hd
            · exact .inr hcache
            · exact ih.2 d hd

/-! ### What is guaranteed -/

/-- What is guaranteed, whatever is known of it. A value is pending on some others when it is guaranteed
if they all are, and they are if it is. -/
structure Meaning (V : Type*) [DecidableEq V] where
  Guaranteed : V → Prop
  Pending : V → Finset V → Prop
  needs : V → List V
  pending_erase : ∀ {v S r}, Pending v S → Guaranteed r → Pending v (S.erase r)
  of_pending : ∀ {v S d}, Pending v S → d ∈ S → Guaranteed v → Guaranteed d
  of_closed : ∀ {X : Set V}, (∀ v ∈ X, ∃ S, Pending v S ∧ ∀ d ∈ S, d ∈ X ∨ Guaranteed d) → ∀ v ∈ X, Guaranteed v

namespace Meaning

variable [DecidableEq V] (M : Meaning V)

/-- What is known is right. -/
structure Correct (a : GuaranteedResultAnalysis V) : Prop where
  cache : ∀ v b, a.valueCache v = some b → (b = true ↔ M.Guaranteed v)
  attr : ∀ v b, a.attr v = some b → (b = true ↔ M.Guaranteed v)

/-- What is said about a value by itself is right. -/
def StateOk (v : V) : State V → Prop
  | .notGuaranteed => ¬M.Guaranteed v
  | .guaranteed => M.Guaranteed v
  | .pending localtodo =>
    localtodo ≠ [] ∧ localtodo.Sublist (M.needs v) ∧ M.Pending v localtodo.toFinset

/-- What is in the cache stays there. -/
def Keeps (a a' : GuaranteedResultAnalysis V) : Prop :=
  ∀ v, (a.valueCache v).isSome → (a'.valueCache v).isSome

/-- What is said about the values of `I` by themselves is right. -/
def LocalOk (localGuaranteed : GuaranteedResultAnalysis V → V →
    Option (State V × GuaranteedResultAnalysis V)) (I : Finset V) : Prop :=
  ∀ a, M.Correct a → ∀ v ∈ I, ∃ state a', localGuaranteed a v = some (state, a') ∧
    M.StateOk v state ∧ M.Correct a' ∧ Keeps a a'

variable {M} {hasOp : V → Bool} {a : GuaranteedResultAnalysis V}
variable {v : V}

theorem guaranteed_of_pending_empty (h : M.Pending v ∅) : M.Guaranteed v := by
  refine M.of_closed (X := {v}) (fun u hu => ?_) v rfl
  obtain rfl := Set.mem_singleton_iff.mp hu
  exact ⟨∅, h, fun d hd => absurd hd (Finset.notMem_empty d)⟩

omit [DecidableEq V] in
theorem Keeps.refl (a : GuaranteedResultAnalysis V) : Keeps a a := fun _ h => h

omit [DecidableEq V] in
theorem Keeps.trans {a' a'' : GuaranteedResultAnalysis V} (h : Keeps a a') (h' : Keeps a' a'') :
    Keeps a a'' :=
  fun v hv => h' v (h v hv)

theorem keeps_setCache (v : V) (b : Bool) : Keeps a (setCache v b a) := by
  intro u hu
  by_cases heq : u = v
  · rw [heq, setCache_self]
    rfl
  · rwa [setCache_of_ne heq]

@[simp] theorem setGuaranteedInIR_valueCache (v : V) (b : Bool) :
    (setGuaranteedInIR hasOp v b a).valueCache = a.valueCache := by
  rw [setGuaranteedInIR]
  split
  · rfl
  · rfl

theorem keeps_setGuaranteedInIR (v : V) (b : Bool) : Keeps a (setGuaranteedInIR hasOp v b a) := by
  intro u hu
  rwa [setGuaranteedInIR_valueCache]

theorem Correct.cache_of_isSome (h : M.Correct a) (hv : M.Guaranteed v)
    (hcached : (a.valueCache v).isSome) : a.valueCache v = some true := by
  obtain ⟨b, hb⟩ := isSome_iff_exists.mp hcached
  rw [hb, (h.cache v b hb).mpr hv]

theorem Correct.setCache (h : M.Correct a) {b : Bool} (hb : b = true ↔ M.Guaranteed v) :
    M.Correct (setCache v b a) := by
  refine ⟨fun u c hc => ?_, h.attr⟩
  by_cases heq : u = v
  · subst heq
    rw [setCache_self] at hc
    exact some.inj hc ▸ hb
  · rw [setCache_of_ne heq] at hc
    exact h.cache u c hc

theorem Correct.setGuaranteedInIR (h : M.Correct a) {b : Bool}
    (hb : b = true ↔ M.Guaranteed v) : M.Correct (setGuaranteedInIR hasOp v b a) := by
  rw [GuaranteedResultAnalysis.setGuaranteedInIR]
  split
  · refine ⟨h.cache, fun u c hc => ?_⟩
    change update a.attr v (some b) u = some c at hc
    by_cases heq : u = v
    · subst heq
      rw [update_self] at hc
      exact some.inj hc ▸ hb
    · rw [update_of_ne heq] at hc
      exact h.attr u c hc
  · exact h

theorem lookup_ok {b : Bool} (hb : b = true ↔ M.Guaranteed v) : M.StateOk v (lookup b) := by
  cases b with
  | false => exact fun h => Bool.false_ne_true (hb.mpr h)
  | true => exact hb.mp rfl

variable {localGuaranteed : GuaranteedResultAnalysis V → V →
  Option (State V × GuaranteedResultAnalysis V)} {I : Finset V}

theorem LocalOk.withSetAttr (h : M.LocalOk localGuaranteed I) :
    M.LocalOk (localGuaranteedWithSetAttr hasOp localGuaranteed) I := by
  intro a ha v hv
  rw [localGuaranteedWithSetAttr]
  cases hattr : a.attr v with
  | some guaranteed => exact ⟨_, a, rfl, lookup_ok (ha.attr v guaranteed hattr), ha, .refl a⟩
  | none =>
    obtain ⟨state, a', hlocal, hok, hcorrect, hkeeps⟩ := h a ha v hv
    rw [hlocal]
    cases state with
    | notGuaranteed =>
      exact ⟨_, _, rfl, hok, hcorrect.setGuaranteedInIR (iff_of_false Bool.false_ne_true hok),
        hkeeps.trans (keeps_setGuaranteedInIR v false)⟩
    | guaranteed =>
      exact ⟨_, _, rfl, hok, hcorrect.setGuaranteedInIR (iff_of_true rfl hok),
        hkeeps.trans (keeps_setGuaranteedInIR v true)⟩
    | pending localtodo => exact ⟨_, a', rfl, hok, hcorrect, hkeeps⟩

/-! ### The loops of a query -/

section

variable (M) (I) (a₀ : GuaranteedResultAnalysis V) (value : V)

/-- The values that wait wait for something they need. -/
structure Waits (q : Query V) : Prop where
  correct : M.Correct q.analysis
  keeps : Keeps a₀ q.analysis
  reverse_needs : ∀ d, ∀ v ∈ q.reverseSeen d, M.Guaranteed v → M.Guaranteed d
  reverse_mem : ∀ d, q.reverseSeen d ≠ [] → d ∈ I

def waiting (reverseSeen : V → List V) : Nat := ∑ d ∈ I, (reverseSeen d).length

/-- The dependencies of the values that were not looked at. -/
def fresh (q : Query V) : Nat :=
  ∑ v ∈ I, if q.seen v = none ∧ q.analysis.valueCache v = none then (M.needs v).length else 0

/-- A value that will be looked at, has been, or is guaranteed. -/
def Found (q : Query V) (rtodo : List V) (d : V) : Prop :=
  d ∈ q.todo ∨ d ∈ rtodo ∨ (q.seen d).isSome ∨ q.analysis.valueCache d = some true

/-- What holds between the values of `todo`; `rtodo` are guaranteed and not yet in the cache. -/
structure Invariant (q : Query V) (rtodo : List V) : Prop extends Waits M I a₀ q where
  todo_mem : ∀ v ∈ q.todo, v ∈ I ∧ (M.Guaranteed value → M.Guaranteed v)
  seen_mem : ∀ v S, q.seen v = some S → v ∈ I ∧ (M.Guaranteed value → M.Guaranteed v)
  waits : ∀ v S, q.seen v = some S → M.Pending v S
  found : ∀ v S d, q.seen v = some S → d ∈ S → Found q rtodo d
  reverse : ∀ d, ∀ v ∈ q.reverseSeen d, ∃ S, q.seen v = some S ∧ d ∈ S
  value_found : Found q rtodo value
  result : q.result = none

end

section

variable {a₀ : GuaranteedResultAnalysis V} {value : V} {q : Query V} {rtodo : List V}

variable {r : V}

theorem waiting_update {reverseSeen : V → List V} (hr : reverseSeen r ≠ [] → r ∈ I) :
    waiting I (update reverseSeen r []) + (reverseSeen r).length = waiting I reverseSeen := by
  by_cases hmem : r ∈ I
  · rw [waiting, waiting, ← Finset.add_sum_erase _ _ hmem, ← Finset.add_sum_erase _ _ hmem,
      update_self, length_nil, zero_add, add_comm]
    congr 1
    refine Finset.sum_congr rfl fun d hd => ?_
    rw [update_of_ne (Finset.ne_of_mem_erase hd)]
  · have hnil : reverseSeen r = [] := by
      by_contra hne
      exact hmem (hr hne)
    rw [hnil, length_nil, add_zero, waiting, waiting]
    refine Finset.sum_congr rfl fun d hd => ?_
    have hne : d ≠ r := fun heq => hmem (heq ▸ hd)
    rw [update_of_ne hne]

theorem Waits.markNotGuaranteedStep (h : Waits M I a₀ q) (hr : ∀ v ∈ r :: rtodo, ¬M.Guaranteed v) :
    ∃ q' rtodo', markNotGuaranteedStep hasOp (q, r :: rtodo) = some (q', rtodo') ∧ Waits M I a₀ q' ∧
      (∀ v ∈ rtodo', ¬M.Guaranteed v) ∧
      waiting I q'.reverseSeen + rtodo'.length < waiting I q.reverseSeen + (r :: rtodo).length := by
  rw [GuaranteedResultAnalysis.markNotGuaranteedStep]
  have hnot : false = true ↔ M.Guaranteed r :=
    iff_of_false Bool.false_ne_true (hr r mem_cons_self)
  split
  · exact ⟨q, rtodo, rfl, h, fun v hv => hr v (mem_cons_of_mem _ hv), Nat.lt_succ_self _⟩
  · have hwaiting := waiting_update (h.reverse_mem r)
    refine ⟨_, _, rfl, ⟨(h.correct.setCache hnot).setGuaranteedInIR hnot,
      h.keeps.trans ((keeps_setCache r false).trans (keeps_setGuaranteedInIR r false)),
      fun d v hv => ?_, fun d hd => ?_⟩, fun v hv => ?_, ?_⟩
    · dsimp only at hv
      by_cases heq : d = r
      · rw [heq, update_self] at hv
        cases hv
      · rw [update_of_ne heq] at hv
        exact h.reverse_needs d v hv
    · dsimp only at hd
      by_cases heq : d = r
      · rw [heq, update_self] at hd
        exact absurd rfl hd
      · rw [update_of_ne heq] at hd
        exact h.reverse_mem d hd
    · obtain hv | hv := mem_append.mp hv
      · have hneeds := h.reverse_needs r v (mem_reverse.mp hv)
        exact fun hguaranteed => hr r mem_cons_self (hneeds hguaranteed)
      · exact hr v (mem_cons_of_mem _ hv)
    · dsimp only
      rw [length_append, length_reverse, length_cons]
      omega

variable {fuel : Nat}

theorem Waits.markNotGuaranteed (h : Waits M I a₀ q) (hr : ¬M.Guaranteed r)
    (hfuel : waiting I q.reverseSeen + 1 < fuel) :
    ∃ q' rtodo', Loop.run (fun s => !s.2.isEmpty) (GuaranteedResultAnalysis.markNotGuaranteedStep hasOp)
      fuel (q, [r]) = some (q', rtodo') ∧ Waits M I a₀ q' := by
  obtain ⟨⟨q', rtodo'⟩, hrun, hP, -⟩ : ∃ t : Query V × List V,
      Loop.run (fun s => !s.2.isEmpty) (GuaranteedResultAnalysis.markNotGuaranteedStep hasOp) fuel
        (q, [r]) = some t ∧ (Waits M I a₀ t.1 ∧ ∀ v ∈ t.2, ¬M.Guaranteed v) ∧ (!t.2.isEmpty) = false := by
    refine Loop.run_of_measure (fun s => waiting I s.1.reverseSeen + s.2.length)
      (fun s hs hcond => ?_) ⟨h, fun v hv => mem_singleton.mp hv ▸ hr⟩ hfuel
    obtain ⟨q, rtodo⟩ := s
    cases rtodo with
    | nil => exact absurd hcond (by simp)
    | cons r rtodo =>
      obtain ⟨q', rtodo', hstep, hwaits, hnot, hlt⟩ := hs.1.markNotGuaranteedStep hs.2
      exact ⟨(q', rtodo'), hstep, ⟨hwaits, hnot⟩, hlt⟩
  exact ⟨q', rtodo', hrun, hP.1⟩

/-- What the values that wait for `r` wait for when `r` is guaranteed. -/
theorem resolve_spec (r : V) (rtodo : List V) {l : List V} {seen : V → Option (Finset V)}
    (hl : ∀ v ∈ l, (seen v).isSome) :
    ∃ seen' rtodo', l.foldlM (resolve r) (seen, rtodo) = some (seen', rtodo') ∧
      (∀ v, (seen' v = seen v ∧ v ∉ l) ∨ ∃ S, seen v = some S ∧ seen' v = some (S.erase r)) ∧
      rtodo'.length ≤ l.length + rtodo.length ∧
      (∀ v ∈ rtodo, v ∈ rtodo') ∧
      ∀ v ∈ rtodo', v ∈ rtodo ∨ v ∈ l ∧ seen' v = some ∅ := by
  induction l generalizing seen rtodo with
  | nil =>
    exact ⟨seen, rtodo, rfl, fun v => .inl ⟨rfl, not_mem_nil⟩, by simp, fun v hv => hv, fun v hv => .inl hv⟩
  | cons next l ih =>
    obtain ⟨S, hS⟩ := isSome_iff_exists.mp (hl next mem_cons_self)
    have hl' : ∀ v ∈ l, (update seen next (some (S.erase r)) v).isSome := by
      intro v hv
      by_cases heq : v = next
      · rw [heq, update_self]
        rfl
      · rw [update_of_ne heq]
        exact hl v (mem_cons_of_mem _ hv)
    obtain ⟨seen', rtodo', hfold, hseen, hlen, hkeep, hnew⟩ :=
      ih (if S.erase r = ∅ then next :: rtodo else rtodo) hl'
    have hstep : resolve r (seen, rtodo) next = some (update seen next (some (S.erase r)),
        if S.erase r = ∅ then next :: rtodo else rtodo) := by
      simp only [resolve, hS, map_some]
    refine ⟨seen', rtodo', ?_, fun v => ?_, ?_, fun v hv => ?_, fun v hv => ?_⟩
    · rw [foldlM_cons, hstep]
      exact hfold
    · by_cases heq : v = next
      · subst heq
        refine .inr ⟨S, hS, ?_⟩
        obtain ⟨hsame, -⟩ | ⟨S', hS', herase⟩ := hseen v
        · rw [hsame, update_self]
        · rw [update_self] at hS'
          rw [herase, ← some.inj hS', Finset.erase_idem]
      · obtain ⟨hsame, hout⟩ | ⟨S', hS', herase⟩ := hseen v
        · rw [update_of_ne heq] at hsame
          refine .inl ⟨hsame, fun hmem => ?_⟩
          exact (mem_cons.mp hmem).elim heq hout
        · rw [update_of_ne heq] at hS'
          exact .inr ⟨S', hS', herase⟩
    · rw [length_cons]
      split at hlen
      · rw [length_cons] at hlen
        omega
      · omega
    · refine hkeep v ?_
      split
      · exact mem_cons_of_mem _ hv
      · exact hv
    · obtain hold | ⟨hmem, hempty⟩ := hnew v hv
      · split at hold
        · rename_i hnil
          obtain rfl | hold := mem_cons.mp hold
          · refine .inr ⟨mem_cons_self, ?_⟩
            obtain ⟨hsame, -⟩ | ⟨S', hS', herase⟩ := hseen v
            · rw [hsame, update_self, hnil]
            · rw [update_self] at hS'
              rw [herase, ← some.inj hS', Finset.erase_idem, hnil]
          · exact .inl hold
        · exact .inl hold
      · exact .inr ⟨mem_cons_of_mem _ hmem, hempty⟩

def Ready (M : Meaning V) (I : Finset V) (q : Query V) (rtodo : List V) : Prop :=
  ∀ v ∈ rtodo, v ∈ I ∧ M.Guaranteed v ∧ ∀ S, q.seen v = some S → S = ∅

theorem Invariant.markGuaranteedStep (h : Invariant M I a₀ value q (r :: rtodo))
    (hr : Ready M I q (r :: rtodo)) : ∃ q' rtodo', markGuaranteedStep (q, r :: rtodo) = some (q', rtodo') ∧
      Invariant M I a₀ value q' rtodo' ∧ Ready M I q' rtodo' ∧ q'.todo = q.todo ∧
      fresh M I q' ≤ fresh M I q ∧ waiting I q'.reverseSeen ≤ waiting I q.reverseSeen ∧
      waiting I q'.reverseSeen + rtodo'.length < waiting I q.reverseSeen + (r :: rtodo).length := by
  obtain ⟨hrMem, hrGuaranteed, hrEmpty⟩ := hr r mem_cons_self
  rw [GuaranteedResultAnalysis.markGuaranteedStep]
  by_cases hcached : (q.analysis.valueCache r).isSome = true
  · have htrue := h.correct.cache_of_isSome hrGuaranteed hcached
    have hfound : ∀ d, Found q (r :: rtodo) d → Found q rtodo d := by
      intro d hd
      obtain hd | hd | hd := hd
      · exact .inl hd
      · obtain rfl | hd := mem_cons.mp hd
        · exact .inr (.inr (.inr htrue))
        · exact .inr (.inl hd)
      · exact .inr (.inr hd)
    rw [if_pos hcached]
    exact ⟨q, rtodo, rfl, { h with
        found := fun v S d hS hd => hfound d (h.found v S d hS hd)
        value_found := hfound value h.value_found },
      fun v hv => hr v (mem_cons_of_mem _ hv), rfl, le_refl _, le_refl _,
      Nat.lt_succ_self _⟩
  -- Nothing that waits is `r`, which waits for nothing.
  have hreverse : ∀ d, ∀ v ∈ q.reverseSeen d, v ≠ r ∧ ∃ S, q.seen v = some S ∧ d ∈ S := by
    intro d v hv
    obtain ⟨S, hS, hd⟩ := h.reverse d v hv
    refine ⟨fun heq => ?_, S, hS, hd⟩
    have hempty := hrEmpty S (heq ▸ hS)
    rw [hempty] at hd
    exact absurd hd (Finset.notMem_empty d)
  have hl : ∀ v ∈ q.reverseSeen r, (update q.seen r none v).isSome := by
    intro v hv
    obtain ⟨hne, S, hS, -⟩ := hreverse r v hv
    rw [update_of_ne hne, hS]
    rfl
  obtain ⟨seen', rtodo', hfold, hseen, hlen, hkeep, hnew⟩ := resolve_spec r rtodo hl
  rw [if_neg hcached, hfold]
  have hwaiting := waiting_update (h.reverse_mem r)
  have hseenR : seen' r = none := by
    obtain ⟨hsame, -⟩ | ⟨S, hS, -⟩ := hseen r
    · rw [hsame, update_self]
    · rw [update_self] at hS
      cases hS
  -- What is seen afterwards was seen before, and waits for less by `r`.
  have hbefore : ∀ v S, seen' v = some S → v ≠ r ∧ ∃ S', q.seen v = some S' ∧
      (S = S' ∧ v ∉ q.reverseSeen r ∨ S = S'.erase r) := by
    intro v S hS
    have hne : v ≠ r := fun heq => by
      rw [heq, hseenR] at hS
      cases hS
    refine ⟨hne, ?_⟩
    obtain ⟨hsame, hout⟩ | ⟨S', hS', herase⟩ := hseen v
    · rw [update_of_ne hne] at hsame
      exact ⟨S, hsame ▸ hS, .inl ⟨rfl, hout⟩⟩
    · rw [update_of_ne hne] at hS'
      exact ⟨S', hS', .inr (some.inj (hS.symm.trans herase))⟩
  have hfound : ∀ d, Found q (r :: rtodo) d →
      Found ⟨setCache r true q.analysis, q.todo, seen', update q.reverseSeen r [], q.result⟩
        rtodo' d := by
    intro d hd
    by_cases heq : d = r
    · refine .inr (.inr (.inr ?_))
      rw [heq]
      exact setCache_self r true q.analysis
    · obtain hd | hd | hd | hd := hd
      · exact .inl hd
      · exact .inr (.inl (hkeep d ((mem_cons.mp hd).resolve_left heq)))
      · refine .inr (.inr (.inl ?_))
        dsimp only
        obtain ⟨hsame, -⟩ | ⟨S, -, hS⟩ := hseen d
        · rwa [hsame, update_of_ne heq]
        · rw [hS]
          rfl
      · refine .inr (.inr (.inr ?_))
        exact (setCache_of_ne heq true q.analysis).trans hd
  have hpending : ∀ v S, seen' v = some S → M.Pending v S := by
    intro v S hS
    obtain ⟨-, S', hS', hcase⟩ := hbefore v S hS
    obtain ⟨rfl, -⟩ | rfl := hcase
    · exact h.waits v S hS'
    · exact M.pending_erase (h.waits v S' hS') hrGuaranteed
  refine ⟨_, rtodo', rfl, ⟨⟨h.correct.setCache (iff_of_true rfl hrGuaranteed),
    h.keeps.trans (keeps_setCache r true), fun d v hv => ?_, fun d hd => ?_⟩, h.todo_mem,
    fun v S hS => ?_, hpending, fun v S d hS hd => ?_, fun d v hv => ?_, hfound value h.value_found,
    h.result⟩, fun v hv => ?_, rfl, ?_, Nat.le.intro hwaiting, ?_⟩
  · dsimp only at hv
    by_cases heq : d = r
    · rw [heq, update_self] at hv
      cases hv
    · rw [update_of_ne heq] at hv
      exact h.reverse_needs d v hv
  · dsimp only at hd
    by_cases heq : d = r
    · rw [heq, update_self] at hd
      exact absurd rfl hd
    · rw [update_of_ne heq] at hd
      exact h.reverse_mem d hd
  · obtain ⟨-, S', hS', -⟩ := hbefore v S hS
    exact h.seen_mem v S' hS'
  · obtain ⟨-, S', hS', hcase⟩ := hbefore v S hS
    refine hfound d (h.found v S' d hS' ?_)
    obtain ⟨rfl, -⟩ | rfl := hcase
    · exact hd
    · exact Finset.mem_of_mem_erase hd
  · dsimp only at hv ⊢
    by_cases heq : d = r
    · rw [heq, update_self] at hv
      cases hv
    · rw [update_of_ne heq] at hv
      obtain ⟨hne, S, hS, hd⟩ := hreverse d v hv
      obtain ⟨hsame, -⟩ | ⟨S', hS', herase⟩ := hseen v
      · rw [update_of_ne hne] at hsame
        exact ⟨S, hsame.trans hS, hd⟩
      · rw [update_of_ne hne, hS] at hS'
        refine ⟨_, herase, ?_⟩
        rw [← some.inj hS']
        exact Finset.mem_erase.mpr ⟨heq, hd⟩
  · obtain hold | ⟨hmem, hempty⟩ := hnew v hv
    · obtain ⟨hvMem, hvGuaranteed, hvEmpty⟩ := hr v (mem_cons_of_mem _ hold)
      refine ⟨hvMem, hvGuaranteed, fun S hS => ?_⟩
      obtain ⟨-, S', hS', hcase⟩ := hbefore v S hS
      have hnil := hvEmpty S' hS'
      obtain ⟨rfl, -⟩ | rfl := hcase
      · exact hnil
      · rw [hnil]
        rfl
    · obtain ⟨-, S', hS', -⟩ := hbefore v ∅ hempty
      refine ⟨(h.seen_mem v S' hS').1, guaranteed_of_pending_empty (hpending v ∅ hempty), fun S hS => ?_⟩
      exact some.inj (hS.symm.trans hempty)
  · refine Finset.sum_le_sum fun v _ => ?_
    dsimp only
    split
    · rename_i hnew
      obtain ⟨hseenV, hcacheV⟩ := hnew
      have hne : v ≠ r := fun heq => by
        rw [heq, setCache_self] at hcacheV
        cases hcacheV
      have hcacheV : q.analysis.valueCache v = none :=
        (setCache_of_ne hne true q.analysis).symm.trans hcacheV
      obtain ⟨hsame, -⟩ | ⟨S, -, hS⟩ := hseen v
      · rw [update_of_ne hne] at hsame
        rw [if_pos ⟨hsame ▸ hseenV, hcacheV⟩]
      · rw [hS] at hseenV
        cases hseenV
    · exact Nat.zero_le _
  · dsimp only
    rw [length_cons]
    omega

theorem Invariant.markGuaranteed (h : Invariant M I a₀ value q [r]) (hr : Ready M I q [r])
    (hfuel : waiting I q.reverseSeen + 1 < fuel) :
    ∃ q' rtodo', Loop.run (fun s => !s.2.isEmpty) GuaranteedResultAnalysis.markGuaranteedStep
        fuel (q, [r]) = some (q', rtodo') ∧
      Invariant M I a₀ value q' [] ∧ q'.todo = q.todo ∧ fresh M I q' ≤ fresh M I q ∧
      waiting I q'.reverseSeen ≤ waiting I q.reverseSeen := by
  obtain ⟨⟨q', rtodo'⟩, hrun, ⟨hinv, -, htodo, hfresh, hwaiting⟩, hend⟩ : ∃ t : Query V × List V,
      Loop.run (fun s => !s.2.isEmpty) GuaranteedResultAnalysis.markGuaranteedStep fuel
        (q, [r]) = some t ∧ (Invariant M I a₀ value t.1 t.2 ∧ Ready M I t.1 t.2 ∧ t.1.todo = q.todo ∧
          fresh M I t.1 ≤ fresh M I q ∧ waiting I t.1.reverseSeen ≤ waiting I q.reverseSeen) ∧
        (!t.2.isEmpty) = false := by
    refine Loop.run_of_measure (fun s => waiting I s.1.reverseSeen + s.2.length)
      (fun s hs hcond => ?_) ⟨h, hr, rfl, le_refl _, le_refl _⟩ hfuel
    obtain ⟨q, rtodo⟩ := s
    cases rtodo with
    | nil => exact absurd hcond (by simp)
    | cons r rtodo =>
      obtain ⟨hinv, hready, htodo, hfresh, hwaiting⟩ := hs
      obtain ⟨q', rtodo', hstep, hinv', hready', htodo', hfresh', hwaiting', hlt⟩ :=
        hinv.markGuaranteedStep hready
      exact ⟨(q', rtodo'), hstep, ⟨hinv', hready', htodo'.trans htodo, hfresh'.trans hfresh,
        hwaiting'.trans hwaiting⟩, hlt⟩
  have hnil : rtodo' = [] := by simpa using hend
  subst hnil
  exact ⟨q', [], hrun, hinv, htodo, hfresh, hwaiting⟩

/-- The values that are still to be looked at need no more lists than there are. -/
def Within (M : Meaning V) (I : Finset V) (q : Query V) : Prop :=
  waiting I q.reverseSeen + fresh M I q ≤ ∑ v ∈ I, (M.needs v).length

theorem Invariant.guaranteed_of_seen (h : Invariant M I a₀ value q []) (htodo : q.todo = [])
    (hv : (q.seen v).isSome) : M.Guaranteed v := by
  refine M.of_closed (X := {v | (q.seen v).isSome}) (fun v hv => ?_) v hv
  obtain ⟨S, hS⟩ := isSome_iff_exists.mp hv
  refine ⟨S, h.waits v S hS, fun d hmem => ?_⟩
  obtain hd | hd | hd | hd := h.found v S d hS hmem
  · rw [htodo] at hd
    cases hd
  · cases hd
  · exact .inl hd
  · exact .inr ((h.correct.cache d true hd).mp rfl)

/-- A query under way, or with the answer that the value asked for is not guaranteed. -/
def Ok (M : Meaning V) (I : Finset V) (a₀ : GuaranteedResultAnalysis V) (value : V) (q : Query V) :
    Prop :=
  Invariant M I a₀ value q [] ∧ Within M I q ∨
    M.Correct q.analysis ∧ Keeps a₀ q.analysis ∧ q.result = some false ∧ ¬M.Guaranteed value

section

variable {cur : V} {todo : List V} {analysis : GuaranteedResultAnalysis V}

theorem fresh_le (hkeeps : Keeps q.analysis analysis) :
    fresh M I { q with analysis := analysis, todo := todo } ≤ fresh M I q := by
  refine Finset.sum_le_sum fun v _ => ?_
  dsimp only
  split
  · rename_i hnew
    have hnone : q.analysis.valueCache v = none := by
      by_contra hne
      have hsome := hkeeps v (isSome_iff_ne_none.mpr hne)
      rw [hnew.2] at hsome
      cases hsome
    rw [if_pos ⟨hnew.1, hnone⟩]
  · exact Nat.zero_le _

theorem Found.tail (hcorrect : M.Correct q.analysis) (hcorrect' : M.Correct analysis)
    (hkeeps : Keeps q.analysis analysis) (htodo : q.todo = cur :: todo) {d : V}
    (h : Found q [] d) : d = cur ∨ Found { q with analysis := analysis, todo := todo } [] d := by
  obtain hd | hd | hd | hd := h
  · rw [htodo] at hd
    exact (mem_cons.mp hd).imp_right .inl
  · cases hd
  · exact .inr (.inr (.inr (.inl hd)))
  · have hguaranteed := (hcorrect.cache d true hd).mp rfl
    refine .inr (.inr (.inr (.inr ?_)))
    exact hcorrect'.cache_of_isSome hguaranteed (hkeeps d (by rw [hd]; rfl))

theorem Invariant.skip (h : Invariant M I a₀ value q []) (htodo : q.todo = cur :: todo)
    (hseen : (q.seen cur).isSome) : Invariant M I a₀ value { q with todo := todo } [] := by
  have hfound : ∀ d, Found q [] d → Found { q with todo := todo } [] d := by
    intro d hd
    obtain rfl | hd := hd.tail h.correct h.correct (.refl _) htodo
    · exact .inr (.inr (.inl hseen))
    · exact hd
  exact { h with
    todo_mem := fun v hv => h.todo_mem v (htodo ▸ mem_cons_of_mem _ hv)
    found := fun v S d hS hd => hfound d (h.found v S d hS hd)
    value_found := hfound value h.value_found }

theorem Invariant.guaranteed (h : Invariant M I a₀ value q []) (htodo : q.todo = cur :: todo)
    (hcorrect : M.Correct analysis) (hkeeps : Keeps q.analysis analysis) :
    Invariant M I a₀ value { q with analysis := analysis, todo := todo } [cur] := by
  have hfound : ∀ d, Found q [] d → Found { q with analysis := analysis, todo := todo } [cur] d := by
    intro d hd
    obtain rfl | hd := hd.tail h.correct hcorrect hkeeps htodo
    · exact .inr (.inl mem_cons_self)
    · exact hd.imp_right (Or.imp_left nofun)
  exact { h with
    correct := hcorrect
    keeps := h.keeps.trans hkeeps
    todo_mem := fun v hv => h.todo_mem v (htodo ▸ mem_cons_of_mem _ hv)
    found := fun v S d hS hd => hfound d (h.found v S d hS hd)
    value_found := hfound value h.value_found }

/-- The query in which `cur` waits for `localtodo`. -/
def await (q : Query V) (analysis : GuaranteedResultAnalysis V) (cur : V) (todo localtodo : List V) :
    Query V :=
  { q with
    analysis := analysis
    todo := todo ++ localtodo
    seen := Function.update q.seen cur (some localtodo.toFinset)
    reverseSeen := fun v => q.reverseSeen v ++ List.replicate (localtodo.count v) cur }

variable {localtodo : List V}

theorem await_seen {S : Finset V} (hS : (await q analysis cur todo localtodo).seen v = some S) :
    v = cur ∧ S = localtodo.toFinset ∨ q.seen v = some S := by
  change update q.seen cur (some localtodo.toFinset) v = some S at hS
  by_cases heq : v = cur
  · rw [heq, update_self] at hS
    exact .inl ⟨heq, (some.inj hS).symm⟩
  · rw [update_of_ne heq] at hS
    exact .inr hS

theorem await_reverseSeen {d v : V} (hv : v ∈ (await q analysis cur todo localtodo).reverseSeen d) :
    v ∈ q.reverseSeen d ∨ v = cur ∧ d ∈ localtodo := by
  refine (mem_append.mp hv).imp_right fun hv => ?_
  obtain ⟨hcount, heq⟩ := mem_replicate.mp hv
  exact ⟨heq, count_pos_iff.mp (pos_of_ne_zero hcount)⟩

theorem Invariant.pending (h : Invariant M I a₀ value q []) (htodo : q.todo = cur :: todo)
    (hunseen : q.seen cur = none) (hcorrect : M.Correct analysis)
    (hkeeps : Keeps q.analysis analysis) (hneeds : ∀ d ∈ M.needs cur, d ∈ I)
    (hsub : localtodo.Sublist (M.needs cur)) (hpending : M.Pending cur localtodo.toFinset) :
    Invariant M I a₀ value (await q analysis cur todo localtodo) [] := by
  obtain ⟨hcurMem, hcurValue⟩ := h.todo_mem cur (htodo ▸ mem_cons_self)
  have hmem : ∀ d ∈ localtodo, d ∈ I := fun d hd => hneeds d (hsub.subset hd)
  have hall : ∀ d ∈ localtodo, M.Guaranteed cur → M.Guaranteed d := fun d hd =>
    M.of_pending hpending (mem_toFinset.mpr hd)
  have hfound : ∀ d, Found q [] d → Found (await q analysis cur todo localtodo) [] d := by
    intro d hd
    by_cases heq : d = cur
    · refine .inr (.inr (.inl ?_))
      simp [await, heq]
    · obtain hd | hd | hd | hd := (hd.tail h.correct hcorrect hkeeps htodo).resolve_left heq
      · exact .inl (mem_append_left _ hd)
      · cases hd
      · refine .inr (.inr (.inl ?_))
        simpa [await, heq] using hd
      · exact .inr (.inr (.inr hd))
  refine ⟨⟨hcorrect, h.keeps.trans hkeeps, fun d v hv => ?_, fun d hd => ?_⟩, fun v hv => ?_,
    fun v S hS => ?_, fun v S hS => ?_, fun v S d hS hd => ?_, fun d v hv => ?_,
    hfound value h.value_found, h.result⟩
  · obtain hold | ⟨rfl, hd⟩ := await_reverseSeen hv
    · exact h.reverse_needs d v hold
    · exact hall d hd
  · obtain ⟨v, hv⟩ := exists_mem_of_ne_nil _ hd
    obtain hold | ⟨-, hd⟩ := await_reverseSeen hv
    · exact h.reverse_mem d (ne_nil_of_mem hold)
    · exact hmem d hd
  · obtain hold | hnew := mem_append.mp hv
    · exact h.todo_mem v (htodo ▸ mem_cons_of_mem _ hold)
    · exact ⟨hmem v hnew, fun hval => hall v hnew (hcurValue hval)⟩
  · obtain ⟨rfl, -⟩ | hold := await_seen hS
    · exact ⟨hcurMem, hcurValue⟩
    · exact h.seen_mem v S hold
  · obtain ⟨rfl, rfl⟩ | hold := await_seen hS
    · exact hpending
    · exact h.waits v S hold
  · obtain ⟨-, rfl⟩ | hold := await_seen hS
    · exact .inl (mem_append_right _ (mem_toFinset.mp hd))
    · exact hfound d (h.found v S d hold hd)
  · obtain hold | ⟨rfl, hd⟩ := await_reverseSeen hv
    · obtain ⟨S, hS, hd⟩ := h.reverse d v hold
      have hne : v ≠ cur := fun heq => by
        rw [heq, hunseen] at hS
        cases hS
      exact ⟨S, (update_of_ne hne _ _).trans hS, hd⟩
    · exact ⟨localtodo.toFinset, update_self _ _ _, mem_toFinset.mpr hd⟩

theorem waiting_await (hmem : ∀ d ∈ localtodo, d ∈ I) :
    waiting I (await q analysis cur todo localtodo).reverseSeen = waiting I q.reverseSeen + localtodo.length := by
  have hcount := Multiset.sum_count_eq_card (m := (localtodo : Multiset V)) hmem
  simp only [Multiset.coe_count, Multiset.coe_card] at hcount
  simp only [await, waiting, length_append, length_replicate, Finset.sum_add_distrib, hcount]

theorem fresh_await (hkeeps : Keeps q.analysis analysis) (hcur : cur ∈ I) (hunseen : q.seen cur = none)
    (huncached : q.analysis.valueCache cur = none) (localtodo : List V) :
    fresh M I (await q analysis cur todo localtodo) + (M.needs cur).length ≤ fresh M I q := by
  have hle : fresh M (I.erase cur) { q with analysis := analysis, todo := todo } ≤
      fresh M (I.erase cur) q :=
    fresh_le hkeeps
  have hold : fresh M I q = (M.needs cur).length + fresh M (I.erase cur) q := by
    rw [fresh, fresh, ← Finset.add_sum_erase _ _ hcur, if_pos ⟨hunseen, huncached⟩]
  have hnew : fresh M I (await q analysis cur todo localtodo) =
      fresh M (I.erase cur) { q with analysis := analysis, todo := todo } := by
    rw [fresh, fresh, ← Finset.add_sum_erase _ _ hcur, if_neg (by simp [await]), zero_add]
    refine Finset.sum_congr rfl fun v hv => ?_
    simp only [await, update_of_ne (Finset.ne_of_mem_erase hv)]
  rw [hold, hnew]
  omega

end

theorem Invariant.queryStep (hlocal : M.LocalOk localGuaranteed I) (h : Invariant M I a₀ value q [])
    (hwithin : Within M I q) (hneeds : ∀ v ∈ I, ∀ d ∈ M.needs v, d ∈ I)
    (hfuel : ∑ v ∈ I, (M.needs v).length + 1 < fuel) (htodo : q.todo ≠ []) :
    ∃ q', queryStep hasOp localGuaranteed fuel q = some q' ∧ Ok M I a₀ value q' ∧
      (q'.result = none → fresh M I q' + q'.todo.length < fresh M I q + q.todo.length) := by
  obtain ⟨cur, todo, htodo⟩ := exists_cons_of_ne_nil htodo
  obtain ⟨hcurMem, hcurValue⟩ := h.todo_mem cur (htodo ▸ mem_cons_self)
  rw [GuaranteedResultAnalysis.queryStep, htodo]
  dsimp only
  by_cases hseen : (q.seen cur).isSome = true
  · rw [if_pos hseen]
    refine ⟨_, rfl, .inl ⟨h.skip htodo hseen, hwithin⟩, fun _ => ?_⟩
    exact Nat.add_lt_add_left (Nat.lt_succ_self _) _
  rw [if_neg hseen]
  have hunseen : q.seen cur = none := by simpa using hseen
  obtain ⟨status, analysis, hstatus, hok, hcorrect, hkeeps, huncached⟩ : ∃ status analysis,
      (match q.analysis.valueCache cur with
        | some guaranteed => some (lookup guaranteed, q.analysis)
        | none => localGuaranteedWithSetAttr hasOp localGuaranteed q.analysis cur) =
          some (status, analysis) ∧
      M.StateOk cur status ∧ M.Correct analysis ∧ Keeps q.analysis analysis ∧
      ∀ localtodo, status = .pending localtodo → q.analysis.valueCache cur = none := by
    cases hcur : q.analysis.valueCache cur with
    | none =>
      obtain ⟨status, analysis, hstatus, hok, hcorrect, hkeeps⟩ :=
        hlocal.withSetAttr q.analysis h.correct cur hcurMem
      exact ⟨status, analysis, hstatus, hok, hcorrect, hkeeps, fun _ _ => rfl⟩
    | some guaranteed =>
      refine ⟨_, _, rfl, lookup_ok (h.correct.cache cur guaranteed hcur), h.correct, .refl _, ?_⟩
      cases guaranteed with
      | true | false => exact nofun
  rw [hstatus]
  have hfresh : fresh M I { q with analysis := analysis, todo := todo } ≤ fresh M I q :=
    fresh_le hkeeps
  have hwaiting : waiting I q.reverseSeen + 1 < fuel :=
    lt_of_le_of_lt (Nat.add_le_add_right (le_self_add.trans hwithin) 1) hfuel
  cases status with
  | notGuaranteed =>
    have hwaits : Waits M I a₀ { q with analysis := analysis, todo := todo } :=
      ⟨hcorrect, h.keeps.trans hkeeps, h.reverse_needs, h.reverse_mem⟩
    obtain ⟨q', rtodo', hrun, hwaits'⟩ := hwaits.markNotGuaranteed hok hwaiting
    dsimp only [bind_some]
    rw [hrun]
    exact ⟨_, rfl, .inr ⟨hwaits'.correct.setGuaranteedInIR (iff_of_false Bool.false_ne_true hok),
      hwaits'.keeps.trans (keeps_setGuaranteedInIR cur false), rfl,
      fun hguaranteed => hok (hcurValue hguaranteed)⟩, nofun⟩
  | guaranteed =>
    have hready : Ready M I { q with analysis := analysis, todo := todo } [cur] := by
      intro v hv
      obtain rfl := mem_singleton.mp hv
      exact ⟨hcurMem, hok, fun S hS => absurd (hunseen.symm.trans hS) nofun⟩
    obtain ⟨q', rtodo', hrun, hinv', htodo', hfresh', hwaiting'⟩ :=
      (h.guaranteed htodo hcorrect hkeeps).markGuaranteed hready hwaiting
    have hfresh' := hfresh'.trans hfresh
    dsimp only [bind_some]
    rw [hrun]
    refine ⟨q', rfl, .inl ⟨hinv', (Nat.add_le_add hwaiting' hfresh').trans hwithin⟩, fun _ => ?_⟩
    rw [htodo', length_cons]
    dsimp only
    omega
  | pending localtodo =>
    obtain ⟨hne, hsub, hpending⟩ := hok
    have hneeds := hneeds cur hcurMem
    have hinv := h.pending htodo hunseen hcorrect hkeeps hneeds hsub hpending
    have hwaiting : waiting I (await q analysis cur todo localtodo).reverseSeen =
        waiting I q.reverseSeen + localtodo.length :=
      waiting_await fun d hd => hneeds d (hsub.subset hd)
    have hfresh : fresh M I (await q analysis cur todo localtodo) + (M.needs cur).length ≤ fresh M I q :=
      fresh_await hkeeps hcurMem hunseen (huncached localtodo rfl) localtodo
    have hlen := hsub.length_le
    have hpos := length_pos_of_ne_nil hne
    dsimp only [bind_some]
    rw [if_neg hne]
    refine ⟨await q analysis cur todo localtodo, rfl, .inl ⟨hinv, ?_⟩, fun _ => ?_⟩
    · rw [Within] at hwithin ⊢
      omega
    · have htodoLength : (await q analysis cur todo localtodo).todo.length =
          todo.length + localtodo.length := length_append
      rw [htodoLength, length_cons]
      omega

variable (hasOp) in
theorem exists_run_query (hlocal : M.LocalOk localGuaranteed I) (hneeds : ∀ v ∈ I, ∀ d ∈ M.needs v, d ∈ I)
    (ha : M.Correct a) (hval : value ∈ I) (hfuel : 2 * ∑ v ∈ I, (M.needs v).length + 5 ≤ fuel) :
    ∃ q, Loop.run (fun q => !q.todo.isEmpty && q.result.isNone)
        (GuaranteedResultAnalysis.queryStep hasOp localGuaranteed fuel) fuel
        ⟨a, [value], fun _ => none, fun _ => [], none⟩ = some q ∧ Ok M I a value q ∧
      (q.todo = [] ∨ q.result ≠ none) := by
  let start : Query V := ⟨a, [value], fun _ => none, fun _ => [], none⟩
  have hfresh : fresh M I start ≤ ∑ v ∈ I, (M.needs v).length := by
    refine Finset.sum_le_sum fun v _ => ?_
    split
    · exact Nat.le_refl _
    · exact Nat.zero_le _
  have hstart : Ok M I a value start := by
    have hzero : waiting I start.reverseSeen = 0 := Finset.sum_const_zero
    refine .inl ⟨⟨⟨ha, .refl a, nofun, fun d hd => absurd rfl hd⟩, fun v hv => ?_, nofun, nofun, nofun,
      nofun, .inl mem_cons_self, rfl⟩, ?_⟩
    · obtain rfl := mem_singleton.mp hv
      exact ⟨hval, id⟩
    · rw [Within, hzero, Nat.zero_add]
      exact hfresh
  have hinner : ∑ v ∈ I, (M.needs v).length + 1 < fuel := by omega
  obtain ⟨q, hrun, hq, hend⟩ : ∃ q : Query V, Loop.run (fun q => !q.todo.isEmpty && q.result.isNone)
        (GuaranteedResultAnalysis.queryStep hasOp localGuaranteed fuel) fuel start = some q ∧
      Ok M I a value q ∧ (!q.todo.isEmpty && q.result.isNone) = false := by
    -- A query with an answer has nothing left to do.
    refine Loop.run_of_measure
      (fun q => if q.result = none then fresh M I q + q.todo.length + 1 else 0)
      (fun q hq hcond => ?_) hstart ?_
    · rw [Bool.and_eq_true, Bool.not_eq_true', isEmpty_eq_false_iff, isNone_iff_eq_none] at hcond
      obtain ⟨hne, hnone⟩ := hcond
      obtain ⟨hinv, hwithin⟩ | ⟨-, -, hres, -⟩ := hq
      · obtain ⟨q', hstep, hok, hlt⟩ := hinv.queryStep hlocal hwithin hneeds hinner hne
        refine ⟨q', hstep, hok, ?_⟩
        rw [if_pos hnone]
        split
        · rename_i hnone'
          exact Nat.add_lt_add_right (hlt hnone') 1
        · exact Nat.succ_pos _
      · rw [hres] at hnone
        cases hnone
    · rw [if_pos rfl]
      change fresh M I start + 1 + 1 < fuel
      omega
  refine ⟨q, hrun, hq, ?_⟩
  rw [Bool.and_eq_false_iff, Bool.not_eq_false', List.isEmpty_iff] at hend
  refine hend.imp_right fun hres hnone => ?_
  rw [hnone] at hres
  cases hres

variable (hasOp) in
/-- The query ends, its answer is right, and so is what is known afterwards. -/
theorem guaranteed_spec (hlocal : M.LocalOk localGuaranteed I) (hneeds : ∀ v ∈ I, ∀ d ∈ M.needs v, d ∈ I)
    (ha : M.Correct a) (hval : value ∈ I) (hfuel : 2 * ∑ v ∈ I, (M.needs v).length + 5 ≤ fuel) :
    ∃ guaranteed' a', guaranteed hasOp localGuaranteed fuel a value = some (guaranteed', a') ∧
      (guaranteed' = true ↔ M.Guaranteed value) ∧ M.Correct a' ∧ Keeps a a' := by
  rw [GuaranteedResultAnalysis.guaranteed]
  cases hcache : a.valueCache value with
  | some b => exact ⟨b, a, rfl, ha.cache value b hcache, ha, .refl a⟩
  | none =>
    cases hattr : a.attr value with
    | some b => exact ⟨b, a, rfl, ha.attr value b hattr, ha, .refl a⟩
    | none =>
      obtain ⟨q, hrun, hok, hend⟩ := exists_run_query hasOp hlocal hneeds ha hval hfuel
      dsimp only
      rw [hrun]
      obtain ⟨hinv, -⟩ | ⟨hcorrect, hkeeps, hres, hnot⟩ := hok
      · have htodo := hend.resolve_right fun hne => hne hinv.result
        rw [map_some, hinv.result]
        have hseen : ∀ v, (q.seen v).isSome → M.Guaranteed v := fun v hv =>
          hinv.guaranteed_of_seen htodo hv
        have hcorrect : M.Correct
            { valueCache := fun v => if (q.seen v).isSome then some true else q.analysis.valueCache v
              attr := fun v => if (q.seen v).isSome && hasOp v then some true
                else q.analysis.attr v } := by
          refine ⟨fun v b hb => ?_, fun v b hb => ?_⟩
          · dsimp only at hb
            split at hb
            · rename_i hsome
              exact iff_of_true (some.inj hb).symm (hseen v hsome)
            · exact hinv.correct.cache v b hb
          · dsimp only at hb
            split at hb
            · rename_i hsome
              exact iff_of_true (some.inj hb).symm (hseen v (Bool.and_eq_true_iff.mp hsome).1)
            · exact hinv.correct.attr v b hb
        have hkeeps : Keeps a
            { valueCache := fun v => if (q.seen v).isSome then some true else q.analysis.valueCache v
              attr := fun v => if (q.seen v).isSome && hasOp v then some true
                else q.analysis.attr v } := by
          intro v hv
          dsimp only
          split
          · rfl
          · exact hinv.keeps v hv
        have hval : ∃ b, (if (q.seen value).isSome then some true
            else q.analysis.valueCache value) = some b := by
          split
          · exact ⟨true, rfl⟩
          · rename_i hunseen
            obtain hv | hv | hv | hv := hinv.value_found
            · rw [htodo] at hv
              cases hv
            · cases hv
            · exact absurd hv hunseen
            · exact ⟨true, hv⟩
        obtain ⟨b, hb⟩ := hval
        have hiff := hcorrect.cache value b hb
        dsimp only
        rw [hb]
        exact ⟨b, _, rfl, hiff, hcorrect.setGuaranteedInIR hiff, hkeeps.trans (keeps_setGuaranteedInIR value b)⟩
      · rw [map_some, hres]
        exact ⟨false, q.analysis, rfl, iff_of_false Bool.false_ne_true hnot, hcorrect, hkeeps⟩

end

/-! ### Values that decide each other -/

section

variable {Accepted : V → Prop} {Below : V → V → Prop} {needs : V → List V} {hwf : WellFounded Below}

/-- A value is pending on values below it that decide. -/
def ofAccepted (Accepted : V → Prop) (Below : V → V → Prop) (needs : V → List V) (hwf : WellFounded Below) :
    Meaning V where
  Guaranteed := Accepted
  Pending v S := (∀ d ∈ S, Below d v) ∧ (Accepted v ↔ ∀ d ∈ S, Accepted d)
  needs := needs
  pending_erase := by
    intro v S r ⟨hbelow, hiff⟩ hr
    refine ⟨fun d hd => hbelow d (Finset.mem_of_mem_erase hd), hiff.trans ⟨fun hall d hd => ?_, fun hall d hd => ?_⟩⟩
    · exact hall d (Finset.mem_of_mem_erase hd)
    · by_cases heq : d = r
      · exact heq ▸ hr
      · exact hall d (Finset.mem_erase.mpr ⟨heq, hd⟩)
  of_pending := by
    intro v S d ⟨_, hiff⟩ hd hv
    exact hiff.mp hv d hd
  of_closed := by
    intro X hclosed v
    induction v using hwf.induction with
    | _ v ih =>
      intro hv
      obtain ⟨S, ⟨hbelow, hiff⟩, hS⟩ := hclosed v hv
      refine hiff.mpr fun d hd => ?_
      exact (hS d hd).elim (ih d (hbelow d hd)) id

theorem recursivelyCheckOperands_ok {skip : V → Bool} {operands : List V}
    (ha : (ofAccepted Accepted Below needs hwf).Correct a) (hneeds : needs v = operands.filter fun d => !skip d)
    (hbelow : ∀ d ∈ needs v, Below d v) (hiff : Accepted v ↔ ∀ d ∈ needs v, Accepted d) :
    (ofAccepted Accepted Below needs hwf).StateOk v (recursivelyCheckOperands a.valueCache skip operands) := by
  have hspec : match uncached a.valueCache skip operands with
      | none => ∃ d ∈ needs v, a.valueCache d = some false
      | some localtodo => localtodo.Sublist (needs v) ∧ ∀ d ∈ needs v, d ∈ localtodo ∨ a.valueCache d = some true := by
    rw [hneeds]
    exact uncached_spec
  rw [recursivelyCheckOperands]
  cases huncached : uncached a.valueCache skip operands with
  | none =>
    rw [huncached] at hspec
    obtain ⟨d, hd, hfalse⟩ := hspec
    intro haccepted
    exact Bool.false_ne_true ((ha.cache d false hfalse).mpr (hiff.mp haccepted d hd))
  | some localtodo =>
    rw [huncached] at hspec
    obtain ⟨hsub, hall⟩ := hspec
    have hcached : ∀ d ∈ needs v, d ∈ localtodo ∨ Accepted d := fun d hd =>
      (hall d hd).imp_right fun htrue => (ha.cache d true htrue).mp rfl
    cases localtodo with
    | nil => exact hiff.mpr fun d hd => (hcached d hd).resolve_left not_mem_nil
    | cons d localtodo =>
      refine ⟨cons_ne_nil d localtodo, hsub, fun u hu => hbelow u (hsub.subset (mem_toFinset.mp hu)),
        hiff.trans ⟨fun h u hu => h u (hsub.subset (mem_toFinset.mp hu)), fun h u hu => ?_⟩⟩
      exact (hcached u hu).elim (fun hmem => h u (mem_toFinset.mpr hmem)) id

end

end Meaning

end GuaranteedResultAnalysis

end EnzymeJax
