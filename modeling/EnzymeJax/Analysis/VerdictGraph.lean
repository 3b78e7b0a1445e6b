import EnzymeJax.Analysis.GuaranteedResult

/-!
# Graphs of verdicts

An analysis says of every value that it is guaranteed, that it is not, or on which other values that depends. A
value is guaranteed if no value that it depends on is not.
-/

namespace EnzymeJax.GuaranteedResultAnalysis

variable {V : Type*}

/-- What the analysis says about a value by itself. Operands that are to be guaranteed are looked up in
the cache first, but for those that are skipped. -/
inductive Verdict (V : Type*)
  | notGuaranteed
  | guaranteed
  | pending (values : List V)
  | operands (values : List V) (skip : V → Bool)

/-- The values that have to be guaranteed. -/
def Verdict.needs : Verdict V → List V
  | notGuaranteed => []
  | guaranteed => []
  | pending values => values
  | operands values skip => values.filter fun v => !skip v

/-- The values of a program. A value is never pending on nothing. -/
structure Graph (V : Type*) where
  hasOp : V → Bool
  verdict : V → Verdict V
  pending_ne : ∀ v, verdict v ≠ .pending []

namespace Graph

variable (g : Graph V)

def localGuaranteed (a : GuaranteedResultAnalysis V) (v : V) :
    Option (State V × GuaranteedResultAnalysis V) :=
  match g.verdict v with
  | .notGuaranteed => some (.notGuaranteed, a)
  | .guaranteed => some (.guaranteed, a)
  | .pending values => some (.pending values, a)
  | .operands values skip => some (recursivelyCheckOperands a.valueCache skip values, a)

def Needs (v d : V) : Prop := d ∈ (g.verdict v).needs

/-- No value that it depends on is not guaranteed. -/
def Guaranteed (v : V) : Prop :=
  ∀ u, Relation.ReflTransGen g.Needs v u → g.verdict u ≠ .notGuaranteed

structure Correct (a : GuaranteedResultAnalysis V) : Prop where
  cache : ∀ v b, a.valueCache v = some b → (b = true ↔ g.Guaranteed v)
  attr : ∀ v b, a.attr v = some b → (b = true ↔ g.Guaranteed v)

variable {g}

theorem guaranteed_iff {v : V} :
    g.Guaranteed v ↔ g.verdict v ≠ .notGuaranteed ∧ ∀ d, g.Needs v d → g.Guaranteed d := by
  constructor
  · intro h
    exact ⟨h v .refl, fun d hd u hu => h u (.head hd hu)⟩
  · intro ⟨hv, hneeds⟩ u hu
    obtain rfl | ⟨d, hd, hu⟩ := hu.cases_head
    · exact hv
    · exact hneeds d hd u hu

theorem Guaranteed.of_needs {v d : V} (h : g.Guaranteed v) (hd : g.Needs v d) : g.Guaranteed d :=
  (guaranteed_iff.mp h).2 d hd

variable [DecidableEq V]

/-- A value is pending on the needs that are not known to be guaranteed. -/
def meaning (g : Graph V) : Meaning V where
  Guaranteed := g.Guaranteed
  Pending v S := g.verdict v ≠ .notGuaranteed ∧ (∀ d ∈ S, g.Needs v d) ∧ ∀ d, g.Needs v d → d ∈ S ∨ g.Guaranteed d
  needs v := (g.verdict v).needs
  pending_erase := by
    intro v S r ⟨hverdict, hneeds, hall⟩ hr
    refine ⟨hverdict, fun d hd => hneeds d (Finset.mem_of_mem_erase hd), fun d hd => ?_⟩
    obtain hmem | hguaranteed := hall d hd
    · by_cases heq : d = r
      · exact .inr (heq ▸ hr)
      · exact .inl (Finset.mem_erase.mpr ⟨heq, hmem⟩)
    · exact .inr hguaranteed
  of_pending := by
    intro v S d ⟨_, hneeds, _⟩ hd hguaranteed
    exact hguaranteed.of_needs (hneeds d hd)
  of_closed := by
    intro X hclosed v hv u hu
    have hall : u ∈ X ∨ g.Guaranteed u := by
      induction hu with
      | refl => exact .inl hv
      | tail _ hneeds ih =>
        obtain hmem | hguaranteed := ih
        · obtain ⟨S, ⟨-, -, hall⟩, hS⟩ := hclosed _ hmem
          exact (hall _ hneeds).elim (hS _) .inr
        · exact .inr (hguaranteed.of_needs hneeds)
    obtain hmem | hguaranteed := hall
    · obtain ⟨S, ⟨hverdict, -, -⟩, -⟩ := hclosed u hmem
      exact hverdict
    · exact (guaranteed_iff.mp hguaranteed).1

theorem correct_iff {a : GuaranteedResultAnalysis V} : g.meaning.Correct a ↔ g.Correct a :=
  ⟨fun h => ⟨h.cache, h.attr⟩, fun h => ⟨h.cache, h.attr⟩⟩

theorem localGuaranteed_ok (g : Graph V) (I : Finset V) : g.meaning.LocalOk g.localGuaranteed I := by
  intro a ha v _
  rw [localGuaranteed]
  cases hverdict : g.verdict v with
  | notGuaranteed =>
    refine ⟨_, a, rfl, fun hguaranteed => ?_, ha, .refl a⟩
    exact (guaranteed_iff.mp hguaranteed).1 hverdict
  | guaranteed =>
    refine ⟨_, a, rfl, guaranteed_iff.mpr ⟨by rw [hverdict]; rintro ⟨⟩, fun d hd => ?_⟩, ha, .refl a⟩
    rw [Needs, hverdict] at hd
    cases hd
  | pending values =>
    have hneeds : ∀ d, g.Needs v d ↔ d ∈ values := by
      intro d
      rw [Needs, hverdict]
      rfl
    refine ⟨_, a, rfl, ⟨fun hnil => g.pending_ne v (by rw [hverdict, hnil]), ?_,
      by rw [hverdict]; rintro ⟨⟩, fun d hd => ?_, fun d hd => ?_⟩, ha, .refl a⟩
    · change values.Sublist (g.verdict v).needs
      rw [hverdict]
      exact List.Sublist.refl _
    · exact (hneeds d).mpr (List.mem_toFinset.mp hd)
    · exact .inl (List.mem_toFinset.mpr ((hneeds d).mp hd))
  | operands values skip =>
    refine ⟨_, a, rfl, ?_, ha, .refl a⟩
    have hneeds : ∀ d, g.Needs v d ↔ d ∈ values.filter fun v => !skip v := by
      intro d
      rw [Needs, hverdict]
      rfl
    have hspec := @uncached_spec V a.valueCache skip values
    rw [recursivelyCheckOperands]
    cases huncached : uncached a.valueCache skip values with
    | none =>
      rw [huncached] at hspec
      obtain ⟨d, hd, hfalse⟩ := hspec
      intro hguaranteed
      have hd := Guaranteed.of_needs hguaranteed ((hneeds d).mpr hd)
      exact Bool.false_ne_true ((ha.cache d false hfalse).mpr hd)
    | some localtodo =>
      rw [huncached] at hspec
      obtain ⟨hsub, hall⟩ := hspec
      have hall : ∀ d, g.Needs v d → d ∈ localtodo ∨ g.Guaranteed d := fun d hd =>
        (hall d ((hneeds d).mp hd)).imp_right fun htrue => (ha.cache d true htrue).mp rfl
      cases localtodo with
      | nil =>
        refine guaranteed_iff.mpr ⟨by rw [hverdict]; rintro ⟨⟩, fun d hd => ?_⟩
        exact (hall d hd).resolve_left List.not_mem_nil
      | cons d localtodo =>
        refine ⟨List.cons_ne_nil d localtodo, ?_, by rw [hverdict]; rintro ⟨⟩, fun d hd => ?_, fun d hd => ?_⟩
        · change (d :: localtodo).Sublist (g.verdict v).needs
          rw [hverdict]
          exact hsub
        · exact (hneeds d).mpr (hsub.subset (List.mem_toFinset.mp hd))
        · exact (hall d hd).imp_left List.mem_toFinset.mpr

/-- For finitely many values that one depends on, and what is known right, the query ends, is right, and leaves what
is known right. -/
theorem guaranteed_exact {a : GuaranteedResultAnalysis V} (ha : g.Correct a) (value : V)
    (hfinite : {v | Relation.ReflTransGen g.Needs value v}.Finite) :
    ∃ bound, ∀ fuel, bound ≤ fuel → ∃ guaranteed' a',
      guaranteed g.hasOp g.localGuaranteed fuel a value = some (guaranteed', a') ∧
      (guaranteed' = true ↔ ∀ u, Relation.ReflTransGen g.Needs value u → g.verdict u ≠ .notGuaranteed) ∧
      g.Correct a' := by
  let I := hfinite.toFinset
  have hI : ∀ v, v ∈ I ↔ Relation.ReflTransGen g.Needs value v := by
    intro v
    rw [Set.Finite.mem_toFinset, Set.mem_ofPred_eq]
  refine ⟨2 * ∑ v ∈ I, (g.verdict v).needs.length + 5, fun fuel hfuel => ?_⟩
  obtain ⟨guaranteed', a', hquery, hiff, hcorrect, -⟩ := Meaning.guaranteed_spec g.hasOp
    (localGuaranteed_ok g I) (fun v hv d hd => (hI d).mpr (((hI v).mp hv).tail hd))
    (correct_iff.mpr ha) ((hI value).mpr .refl) hfuel
  exact ⟨guaranteed', a', hquery, hiff, correct_iff.mp hcorrect⟩

/-- A value that is pending twice on one that is guaranteed, and on one pending on that one too. -/
def shared : Graph (Fin 3) where
  hasOp _ := true
  verdict
    | 0 => .pending [1, 1, 2]
    | 1 => .guaranteed
    | 2 => .operands [1, 0] (· = 0)
  pending_ne
    | 0 => nofun
    | 1 => nofun
    | 2 => nofun

theorem guaranteed_exact_shared : ∃ bound, ∀ fuel, bound ≤ fuel → ∃ guaranteed' a',
    guaranteed shared.hasOp shared.localGuaranteed fuel ⟨fun _ => none, fun _ => none⟩ 0 = some (guaranteed', a') ∧
    (guaranteed' = true ↔ ∀ u, Relation.ReflTransGen shared.Needs 0 u → shared.verdict u ≠ .notGuaranteed) ∧
    shared.Correct a' :=
  guaranteed_exact ⟨nofun, nofun⟩ 0 (Set.toFinite _)

example : (guaranteed shared.hasOp shared.localGuaranteed 10 ⟨fun _ => none, fun _ => none⟩ 0).map
    Prod.fst = some true := by decide

end Graph

end EnzymeJax.GuaranteedResultAnalysis
