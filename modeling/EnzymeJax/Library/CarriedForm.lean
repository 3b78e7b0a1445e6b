import EnzymeJax.Library.Straightline

/-!
# Loops that carry values in another form

A loop carries a form of some values. It rebuilds the value from its form where a region is entered, yields the form
of what was yielded, and has code after it for the results. A rebuilt value has its old name, so the code of the
regions stays as it is. What is left to show for a loop is what each piece of added code computes.
-/

namespace Straightline

open List Option

/-- The names of the values of a loop that carries some values in another form. -/
inductive FormName (V : Type*)
  | old (v : V)
  -- what is computed before the loop
  | initial (v : V) (i : Nat)
  -- an argument or a result in the new form
  | form (v : V)
  -- what is computed to rebuild a value
  | part (v : V) (i : Nat)
  -- what is computed to be yielded
  | yielded (v : V) (i : Nat)
  -- what is computed once in a region, or after the loop
  | shared (v : V)
  deriving DecidableEq

/-- The value of the old loop that a name is about. -/
def FormName.base {V : Type*} : FormName V → V
  | old v | initial v _ | form v | part v _ | yielded v _ | shared v => v

/-- The code for the values that are carried in another form. -/
structure Carrying (O V : Type*) where
  before : Carried V → List (Instr O (FormName V))
  operand : Carried V → FormName V
  condHead : List (Instr O (FormName V))
  bodyHead : List (Instr O (FormName V))
  -- an argument from its form
  rebuild : Carried V → V → List (Instr O (FormName V))
  -- the operations of the body, and what makes the yielded forms
  body : List (Instr O (FormName V))
  yield : Carried V → FormName V
  after : List (Instr O (FormName V))

variable {O V D : Type*}

def Carrying.carried (F : Carrying O V) (cand : Carried V → Bool) (c : Carried V) : Carried (FormName V) :=
  if cand c then ⟨F.operand c, .form c.condArg, .form c.bodyArg, F.yield c, .form c.result⟩ else c.map .old

/-- The loop that carries the candidates in another form. -/
def carryAs (l : Loop O V) (cand : Carried V → Bool) (F : Carrying O V) : Program O (FormName V) :=
  ⟨(l.carried.filter cand).flatMap F.before, ⟨l.carried.map (F.carried cand),
      F.condHead ++ ((l.carried.filter cand).flatMap (fun c => F.rebuild c c.condArg) ++
        l.condOps.map (Instr.rename .old .old)),
      .old l.test,
      F.bodyHead ++ ((l.carried.filter cand).flatMap (fun c => F.rebuild c c.bodyArg) ++ F.body)⟩,
    F.after⟩

/-- The operations of the body as they are, and code for what is yielded. -/
def renamedBody (l : Loop O V) (cand : Carried V → Bool) (yields : Carried V → List (Instr O (FormName V))) :
    List (Instr O (FormName V)) :=
  l.bodyOps.map (Instr.rename .old .old) ++ (l.carried.filter cand).flatMap yields

/-- Every value of a loop is defined once, and the regions do not use the results. -/
structure Loop.Scoped (l : Loop O V) (outside : V → Prop) : Prop where
  condArgs : (l.carried.map Carried.condArg).Nodup
  bodyArgs : (l.carried.map Carried.bodyArg).Nodup
  results : (l.carried.map Carried.result).Nodup
  condOps : ∀ i ∈ l.condOps, ∀ c ∈ l.carried, i.result ≠ c.condArg
  bodyOps : ∀ i ∈ l.bodyOps, ∀ c ∈ l.carried, i.result ≠ c.bodyArg
  condOperands : ∀ i ∈ l.condOps, ∀ v ∈ i.operands, ∀ c ∈ l.carried, c.result ≠ v
  bodyOperands : ∀ i ∈ l.bodyOps, ∀ v ∈ i.operands, ∀ c ∈ l.carried, c.result ≠ v
  test : ∀ c ∈ l.carried, c.result ≠ l.test
  yields : ∀ c' ∈ l.carried, ∀ c ∈ l.carried, c.result ≠ c'.yield
  operands : ∀ c' ∈ l.carried, ∀ c ∈ l.carried, c.result ≠ c'.operand
  outside : ∀ v, outside v → ∀ c ∈ l.carried, c.condArg ≠ v ∧ c.bodyArg ≠ v ∧ c.result ≠ v

/-- What is defined by the code that is added. -/
structure Carrying.Named (F : Carrying O V) : Prop where
  before : ∀ c, ∀ i ∈ F.before c, ∃ j, i.result = .initial c.result j
  operand : ∀ c, (∃ v, F.operand c = .old v) ∨ ∃ j, F.operand c = .initial c.result j
  condHead : ∀ i ∈ F.condHead, ∃ v, i.result = .shared v
  bodyHead : ∀ i ∈ F.bodyHead, ∃ v, i.result = .shared v
  rebuild : ∀ c v, ∀ i ∈ F.rebuild c v, i.result = .old v ∨ ∃ j, i.result = .part v j

/-- What holds of the forms in a run. -/
structure Forms (V D : Type*) where
  -- the form of a value on entering an iteration
  rep : Carried V → Nat → D → D → Prop
  -- what is computed before the loop
  initial : Carried V → (Nat → D) → Prop
  -- what is computed once in a region of an iteration
  shared : Nat → (V → D) → Prop
  -- the argument that is rebuilt is the value
  exact : Carried V → Prop

/-- Forms that are rebuilt to their values without anything else. -/
def Forms.ofRep (rep : Carried V → Nat → D → D → Prop) : Forms V D :=
  ⟨rep, fun _ _ => True, fun _ _ => True, fun _ => True⟩

/-- A value that is no result, nor an argument that is not rebuilt exactly. -/
def Loop.Reads (l : Loop O V) (arg : Carried V → V) (exact : Carried V → Prop) (v : V) : Prop :=
  ∀ c ∈ l.carried, c.result ≠ v ∧ (arg c = v → exact c)

/-- The loop uses no other arguments. -/
structure Loop.ReadsExact (l : Loop O V) (exact : Carried V → Prop) : Prop where
  condOps : ∀ i ∈ l.condOps, ∀ v ∈ i.operands, ∀ c ∈ l.carried, c.condArg = v → exact c
  test : ∀ c ∈ l.carried, c.condArg = l.test → exact c
  bodyOps : ∀ i ∈ l.bodyOps, ∀ v ∈ i.operands, ∀ c ∈ l.carried, c.bodyArg = v → exact c
  yields : ∀ c' ∈ l.carried, ∀ c ∈ l.carried, c.bodyArg = c'.yield → exact c

theorem Loop.readsExact_true (l : Loop O V) : l.ReadsExact fun _ => True :=
  ⟨fun _ _ _ _ _ _ _ => trivial, fun _ _ _ => trivial, fun _ _ _ _ _ _ _ => trivial, fun _ _ _ _ _ => trivial⟩

variable {arg : Carried V → V} {e : V → D}

theorem Loop.agrees_of_reads {W : Type*} (l : Loop O V) {use : V → W} {e' : W → D}
    (h : ∀ v, l.Reads arg (fun _ => True) v → e' (use v) = e v) : l.Agrees use e e' :=
  fun v hv => h v fun c hc => ⟨hv c hc, fun _ => trivial⟩

variable [DecidableEq V]

/-- What the code computes in a run. -/
structure Carrying.Computes (S : Semantics O D) (F : Carrying O V) (l : Loop O V) (cand : Carried V → Bool)
    (outside : V → Prop) (env : V → D) (N : Nat) (I : Forms V D) : Prop where
  before : ∀ c ∈ l.carried, cand c = true → ∀ e : FormName V → D, (∀ v, e (.old v) = env v) →
    ∃ e', run S (F.before c) e = some e' ∧ I.rep c 0 (e' (F.operand c)) (env c.operand) ∧
      I.initial c fun j => e' (.initial c.result j)
  condHead : ∀ k ≤ N, ∀ σ d, l.entering S env k = some σ → l.condEnv S σ = some d → ∀ e : FormName V → D,
    (∀ v, outside v → e (.old v) = env v) → (∀ c ∈ l.carried, cand c = false → e (.old c.condArg) = σ c.result) →
        ∃ e', run S F.condHead e = some e' ∧ I.shared k fun v => e' (.shared v)
  bodyHead : ∀ k ≤ N, ∀ σ d, l.entering S env k = some σ → l.condEnv S σ = some d → ∀ e : FormName V → D,
    (∀ v, outside v → e (.old v) = env v) → (∀ c ∈ l.carried, cand c = false → e (.old c.bodyArg) = σ c.result) →
        ∃ e', run S F.bodyHead e = some e' ∧ I.shared k fun v => e' (.shared v)
  rebuild : ∀ k ≤ N, ∀ σ, l.entering S env k = some σ → ∀ c ∈ l.carried, cand c = true → ∀ v (e : FormName V → D),
    (∀ u, outside u → e (.old u) = env u) → I.shared k (fun u => e (.shared u)) →
      I.initial c (fun j => e (.initial c.result j)) → I.rep c k (e (.form v)) (σ c.result) →
        ∃ e', run S (F.rebuild c v) e = some e' ∧ (I.exact c → e' (.old v) = σ c.result)
  body : ∀ k ≤ N, ∀ σ e, l.entering S env k = some σ → l.continues S σ = some true → l.bodyEnv S σ = some e →
    ∀ e₀ : FormName V → D, (∀ v, l.Reads Carried.bodyArg I.exact v →
      e₀ (.old v) = assign l.carried Carried.bodyArg (fun c => σ c.result) σ v) →
      (∀ c ∈ l.carried, cand c = true → I.initial c fun j => e₀ (.initial c.result j)) →
      (∀ c ∈ l.carried, cand c = true → ∃ x, I.rep c k x (σ c.result)) →
        ∃ e', run S F.body e₀ = some e' ∧ (∀ v, l.Reads Carried.bodyArg I.exact v → e' (.old v) = e v) ∧
          ∀ c ∈ l.carried, cand c = true → k < N → I.rep c (k + 1) (e' (F.yield c)) (e c.yield)

section

variable {S : Semantics O D} {l : Loop O V} {cand : Carried V → Bool} {F : Carrying O V} {outside : V → Prop}
  {env σ : V → D} {τ : FormName V → D} {N : Nat} {c : Carried V} {v : V}

/-! ### Assignments to the carried values -/

section

variable {dst : Carried V → V} {dst' : Carried (FormName V) → FormName V} {val' : Carried (FormName V) → D}
  (hold : ∀ c : Carried V, dst' (c.map .old) = .old (dst c))
  (hform : ∀ c : Carried V, dst' ⟨F.operand c, .form c.condArg, .form c.bodyArg, F.yield c, .form c.result⟩ =
    .form (dst c))

include hold hform

omit [DecidableEq V] in
theorem dst_carried (c : Carried V) :
    dst' (F.carried cand c) = if cand c then .form (dst c) else .old (dst c) := by
  rw [Carrying.carried]
  cases cand c with
  | true => exact hform c
  | false => exact hold c

omit [DecidableEq V] in
theorem nodup_carried (hnodup : (l.carried.map dst).Nodup) : ((l.carried.map (F.carried cand)).map dst').Nodup := by
  refine Nodup.of_map FormName.base ?_
  have hbase : (FormName.base ∘ dst') ∘ F.carried cand = dst := by
    funext c
    rw [Function.comp_apply, Function.comp_apply, dst_carried hold hform]
    split
    · rfl
    · rfl
  rwa [List.map_map, List.map_map, hbase]

theorem assign_form (hnodup : (l.carried.map dst).Nodup) (hc : c ∈ l.carried) (hcand : cand c = true) :
    assign (l.carried.map (F.carried cand)) dst' val' τ (.form (dst c)) = val' (F.carried cand c) := by
  have h : assign (l.carried.map (F.carried cand)) dst' val' τ (dst' (F.carried cand c)) = val' (F.carried cand c) :=
    assign_of_mem (nodup_carried hold hform hnodup) (mem_map_of_mem hc)
  rwa [dst_carried hold hform, if_pos hcand] at h

theorem assign_kept (hnodup : (l.carried.map dst).Nodup) (hc : c ∈ l.carried) (hcand : cand c = false) :
    assign (l.carried.map (F.carried cand)) dst' val' τ (.old (dst c)) = val' (F.carried cand c) := by
  have h : assign (l.carried.map (F.carried cand)) dst' val' τ (dst' (F.carried cand c)) = val' (F.carried cand c) :=
    assign_of_mem (nodup_carried hold hform hnodup) (mem_map_of_mem hc)
  rwa [dst_carried hold hform, if_neg (Bool.not_eq_true _ ▸ hcand)] at h

theorem assign_other {w : FormName V} (hv : ∀ c ∈ l.carried, w ≠ .form (dst c))
    (hkept : ∀ c ∈ l.carried, cand c = false → w ≠ .old (dst c)) :
    assign (l.carried.map (F.carried cand)) dst' val' τ w = τ w := by
  refine assign_of_ne fun c' hc' heq => ?_
  obtain ⟨c, hc, rfl⟩ := mem_map.mp hc'
  rw [dst_carried hold hform] at heq
  split at heq
  · exact hv c hc heq.symm
  · rename_i hcand
    exact hkept c hc (Bool.not_eq_true _ ▸ hcand) heq.symm

theorem assign_old_carried {val : Carried V → D} (hnodup : (l.carried.map dst).Nodup)
    (hval : ∀ c ∈ l.carried, cand c = false → val' (F.carried cand c) = val c)
    (hne : ∀ c ∈ l.carried, cand c = true → dst c ≠ v) (hτ : (∀ c ∈ l.carried, dst c ≠ v) → τ (.old v) = σ v) :
    assign (l.carried.map (F.carried cand)) dst' val' τ (.old v) = assign l.carried dst val σ v := by
  by_cases hmem : ∃ c ∈ l.carried, dst c = v
  · obtain ⟨c, hc, rfl⟩ := hmem
    have hcand : cand c = false := Bool.eq_false_iff.mpr fun h => hne c hc h rfl
    rw [assign_kept hold hform hnodup hc hcand, assign_of_mem hnodup hc, hval c hc hcand]
  · have hmem' : ∀ c ∈ l.carried, dst c ≠ v := fun c hc heq => hmem ⟨c, hc, heq⟩
    rw [assign_of_ne hmem', assign_other hold hform (fun _ _ heq => by cases heq)
      fun c hc _ heq => hmem' c hc (FormName.old.inj heq).symm, hτ hmem']

end

/-! ### The regions -/

variable {e₀ : FormName V → D}

variable {I : Forms V D}

theorem run_rebuilt {head : List (Instr O (FormName V))} {k : Nat} (arg : Carried V → V) (hF : F.Named)
    (hnodup : (l.carried.map arg).Nodup) (hout : ∀ v, outside v → ∀ c ∈ l.carried, arg c ≠ v ∧ c.result ≠ v)
    (hhead : ∀ i ∈ head, ∃ v, i.result = .shared v) {a : V → D}
    (hold : ∀ v, (∀ c ∈ l.carried, c.result ≠ v) → (∀ c ∈ l.carried, cand c = true → arg c ≠ v) → e₀ (.old v) = a v)
    (houtside : ∀ v, outside v → a v = env v)
    (hshared : ∃ e₁, run S head e₀ = some e₁ ∧ I.shared k fun v => e₁ (.shared v))
    (hrebuild : ∀ c ∈ l.carried, cand c = true → ∀ e : FormName V → D, (∀ u, outside u → e (.old u) = env u) →
      I.shared k (fun u => e (.shared u)) → (∀ v j, e (.initial v j) = e₀ (.initial v j)) →
        e (.form (arg c)) = e₀ (.form (arg c)) →
          ∃ e', run S (F.rebuild c (arg c)) e = some e' ∧ (I.exact c → e' (.old (arg c)) = a (arg c))) :
    ∃ e, run S (head ++ (l.carried.filter cand).flatMap fun c => F.rebuild c (arg c)) e₀ = some e ∧
      (∀ v, l.Reads arg I.exact v → e (.old v) = a v) ∧ ∀ v j, e (.initial v j) = e₀ (.initial v j) := by
  obtain ⟨e₁, he₁, hH⟩ := hshared
  have hframe : ∀ w, (∀ v, w ≠ FormName.shared v) → e₁ w = e₀ w := by
    refine fun w hw => run_frame he₁ fun i hi heq => ?_
    obtain ⟨v, hv⟩ := hhead i hi
    exact hw v (heq.symm.trans hv)
  have hkept : ∀ v, (∀ c ∈ l.carried, c.result ≠ v) → (∀ c ∈ l.carried, cand c = true → arg c ≠ v) →
      e₁ (.old v) = a v := fun v hv hne => (hframe (.old v) fun _ => nofun).trans (hold v hv hne)
  have hmem : ∀ c ∈ l.carried.filter cand, c ∈ l.carried ∧ cand c = true := fun c hc => mem_filter.mp hc
  obtain ⟨e₂, he₂, hsame, hrebuilt⟩ : ∃ e₂,
      run S ((l.carried.filter cand).flatMap fun c => F.rebuild c (arg c)) e₁ = some e₂ ∧
        (∀ w, ((∀ c ∈ l.carried, cand c = true → w ≠ .old (arg c)) ∧ ∀ v j, w ≠ .part v j) → e₂ w = e₁ w) ∧
          ∀ c ∈ l.carried.filter cand, I.exact c → e₂ (.old (arg c)) = a (arg c) := by
    refine exists_run_flatMap_of (Q := fun c x => I.exact c → x = a (arg c)) (fun c hc e he => ?_)
      (fun c hc i hi hkeep => ?_) ?_
    · refine hrebuild c (hmem c hc).1 (hmem c hc).2 e (fun u hu => ?_) ?_ (fun v j => ?_) ?_
      · rw [he (.old u) ⟨fun c' hc' _ heq => (hout u hu c' hc').1 (FormName.old.inj heq).symm, fun _ _ => nofun⟩,
          hkept u (fun c' hc' => (hout u hu c' hc').2) fun c' hc' _ => (hout u hu c' hc').1, houtside u hu]
      · rwa [show (fun u => e (.shared u)) = fun u => e₁ (.shared u) from
          funext fun u => he (.shared u) ⟨fun _ _ _ => nofun, fun _ _ => nofun⟩]
      · rw [he (.initial v j) ⟨fun _ _ _ => nofun, fun _ _ => nofun⟩, hframe (.initial v j) fun _ => nofun]
      · rw [he (.form _) ⟨fun _ _ _ => nofun, fun _ _ => nofun⟩, hframe (.form _) fun _ => nofun]
    · rcases hF.rebuild c (arg c) i hi with hres | ⟨j, hres⟩
      · exact hkeep.1 c (hmem c hc).1 (hmem c hc).2 hres
      · exact hkeep.2 _ j hres
    · refine (pairwise_map.mp (hnodup.sublist (filter_sublist.map arg))).imp fun hne i hi heq => ?_
      rcases hF.rebuild _ _ i hi with hres | ⟨j, hres⟩
      · exact hne (FormName.old.inj (heq.symm.trans hres))
      · exact nomatch heq.symm.trans hres
  refine ⟨e₂, by rw [run_append, he₁, bind_some, he₂], fun v hv => ?_, fun v j => ?_⟩
  · by_cases hv' : ∃ c ∈ l.carried, cand c = true ∧ arg c = v
    · obtain ⟨c, hc, hcand, rfl⟩ := hv'
      exact hrebuilt c (mem_filter.mpr ⟨hc, hcand⟩) ((hv c hc).2 rfl)
    · have hne : ∀ c ∈ l.carried, cand c = true → arg c ≠ v := fun c hc hcand heq => hv' ⟨c, hc, hcand, heq⟩
      rw [hsame (.old v) ⟨fun c hc hcand heq => hne c hc hcand (FormName.old.inj heq).symm, fun _ _ => nofun⟩,
        hkept v (fun c hc => (hv c hc).1) hne]
  · rw [hsame (.initial v j) ⟨fun _ _ _ => nofun, fun _ _ => nofun⟩, hframe (.initial v j) fun _ => nofun]

theorem run_renamed {region : List (Instr O V)} {scope : V → Prop} {a : V → D}
    (hscope : ∀ i ∈ region, ∀ v ∈ i.operands, scope v) (hold : ∀ v, scope v → e₀ (.old v) = a v)
    (he : run S region a = some e) :
    ∃ e', run S (region.map (Instr.rename .old .old)) e₀ = some e' ∧ ∀ v, scope v → e' (.old v) = e v :=
  run_rename hscope (fun _ _ _ _ => ⟨FormName.old.inj, congrArg _⟩) hold he

theorem run_renamedBody {yields : Carried V → List (Instr O (FormName V))} {yield : Carried V → FormName V}
    {R : Carried V → D → D → Prop} {exact : Carried V → Prop} (hl : l.Scoped outside)
    (hreads : l.ReadsExact exact) (hnames : ∀ c, ∀ i ∈ yields c, ∃ j, i.result = .yielded c.result j)
    (hyield : ∀ c, (∃ v, yield c = .old v) ∨ ∃ j, yield c = .yielded c.result j)
    (hyields : ∀ c ∈ l.carried, cand c = true → ∀ e' : FormName V → D,
      (∀ v, l.Reads Carried.bodyArg exact v → e' (.old v) = e v) → (∀ v j, e' (.initial v j) = e₀ (.initial v j)) →
          ∃ e'', run S (yields c) e' = some e'' ∧ R c (e'' (yield c)) (e c.yield))
    (hold : ∀ v, l.Reads Carried.bodyArg exact v →
      e₀ (.old v) = assign l.carried Carried.bodyArg (fun c => σ c.result) σ v) (he : l.bodyEnv S σ = some e) :
    ∃ e', run S (renamedBody l cand yields) e₀ = some e' ∧ (∀ v, l.Reads Carried.bodyArg exact v → e' (.old v) = e v) ∧
        ∀ c ∈ l.carried, cand c = true → R c (e' (yield c)) (e c.yield) := by
  have hmem : ∀ c ∈ l.carried.filter cand, c ∈ l.carried ∧ cand c = true := fun c hc => mem_filter.mp hc
  obtain ⟨e₁, he₁, hagree⟩ := run_renamed (fun i hi v hv c hc => ⟨hl.bodyOperands i hi v hv c hc,
    hreads.bodyOps i hi v hv c hc⟩) hold he
  have hinitial : ∀ v j, e₁ (.initial v j) = e₀ (.initial v j) := by
    refine fun v j => run_frame he₁ fun i hi => ?_
    obtain ⟨i', -, rfl⟩ := mem_map.mp hi
    exact nofun
  obtain ⟨e', he', hsame, hvals⟩ : ∃ e', run S ((l.carried.filter cand).flatMap yields) e₁ = some e' ∧
      (∀ w, (∀ v j, w ≠ FormName.yielded v j) → e' w = e₁ w) ∧
        ∀ c ∈ l.carried.filter cand, R c (e' (yield c)) (e c.yield) := by
    refine exists_run_flatMap_of (Q := fun c x => R c x (e c.yield)) (fun c hc e' hkeep => ?_)
      (fun c _ i hi hkeep => ?_) ?_
    · refine hyields c (hmem c hc).1 (hmem c hc).2 e' (fun v hv => ?_) fun v j => ?_
      · rw [hkeep (.old v) fun _ _ => nofun, hagree v hv]
      · rw [hkeep (.initial v j) fun _ _ => nofun, hinitial]
    · obtain ⟨j, hj⟩ := hnames c i hi
      exact hkeep _ _ hj
    · refine (pairwise_map.mp (hl.results.sublist (filter_sublist.map _))).imp fun hne i hi heq => ?_
      obtain ⟨j, hj⟩ := hnames _ i hi
      rcases hyield _ with ⟨v, hv⟩ | ⟨j', hj'⟩
      · exact nomatch hv.symm.trans (heq.symm.trans hj)
      · exact hne (FormName.yielded.inj (hj'.symm.trans (heq.symm.trans hj))).1
  refine ⟨e', ?_, fun v hv => ?_, fun c hc hcand => hvals c (mem_filter.mpr ⟨hc, hcand⟩)⟩
  · rw [renamedBody, run_append, he₁, bind_some, he']
  · rw [hsame (.old v) fun _ _ => nofun, hagree v hv]

/-! ### The whole loop -/

omit [DecidableEq V] in
theorem carried_candidate (h : cand c = true) :
    F.carried cand c = ⟨F.operand c, .form c.condArg, .form c.bodyArg, F.yield c, .form c.result⟩ := if_pos h

omit [DecidableEq V] in
theorem carried_kept (h : cand c = false) : F.carried cand c = c.map .old :=
  if_neg (Bool.not_eq_true _ ▸ h)

/-- The values on entering an iteration: those that are kept, and forms of the others. -/
structure Related (l : Loop O V) (cand : Carried V → Bool) (I : Forms V D) (k : Nat) (σ : V → D)
    (τ : FormName V → D) : Prop where
  kept : ∀ v, (∀ c ∈ l.carried, cand c = true → c.result ≠ v) → τ (.old v) = σ v
  forms : ∀ c ∈ l.carried, cand c = true → I.rep c k (τ (.form c.result)) (σ c.result)
  initial : ∀ c ∈ l.carried, cand c = true → I.initial c fun j => τ (.initial c.result j)

theorem Related.assign_eq {k : Nat} {arg' : Carried (FormName V) → FormName V} (h : Related l cand I k σ τ)
    (hl : l.Scoped outside) (hold : ∀ c : Carried V, arg' (c.map .old) = .old (arg c))
    (hform : ∀ c : Carried V, arg' ⟨F.operand c, .form c.condArg, .form c.bodyArg, F.yield c, .form c.result⟩ =
      .form (arg c)) (hnodup : (l.carried.map arg).Nodup) :
    (∀ v, (∀ c ∈ l.carried, c.result ≠ v) → (∀ c ∈ l.carried, cand c = true → arg c ≠ v) →
      assign (l.carried.map (F.carried cand)) arg' (fun c => τ c.result) τ (.old v) =
        assign l.carried arg (fun c => σ c.result) σ v) ∧
    (∀ c ∈ l.carried, cand c = false →
      assign (l.carried.map (F.carried cand)) arg' (fun c => τ c.result) τ (.old (arg c)) = σ c.result) ∧
    (∀ c ∈ l.carried, cand c = true →
      I.rep c k (assign (l.carried.map (F.carried cand)) arg' (fun c => τ c.result) τ (.form (arg c))) (σ c.result)) ∧
    ∀ v j, assign (l.carried.map (F.carried cand)) arg' (fun c => τ c.result) τ (.initial v j) = τ (.initial v j) := by
  have hkept : ∀ c ∈ l.carried, cand c = false → τ (F.carried cand c).result = σ c.result := by
    intro c hc hcand
    rw [carried_kept hcand]
    refine h.kept _ fun c' hc' hcand' heq => ?_
    rw [inj_on_of_nodup_map hl.results hc' hc heq, hcand] at hcand'
    cases hcand'
  refine ⟨fun v hv hne => ?_, fun c hc hcand => ?_, fun c hc hcand => ?_, fun v j => ?_⟩
  · exact assign_old_carried hold hform hnodup hkept hne fun _ => h.kept v fun c hc _ => hv c hc
  · rw [assign_kept hold hform hnodup hc hcand, hkept c hc hcand]
  · rw [assign_form hold hform hnodup hc hcand, carried_candidate hcand]
    exact h.forms c hc hcand
  · exact assign_other hold hform (fun _ _ => nofun) fun _ _ _ => nofun

theorem simulatesTo_carryAs {env' : FormName V → D} {atCond atBody atEnd : Nat → (V → D) → (FormName V → D) → Prop}
    (hl : l.Scoped outside) (hreads : l.ReadsExact I.exact) (hF : F.Named)
    (hcomputes : F.Computes S l cand outside env N I) (henv : ∀ v, env' (.old v) = env v)
    (hatCond : ∀ k e e', (∀ v, l.Reads Carried.condArg I.exact v → e' (.old v) = e v) → atCond k e e')
    (hatBody : ∀ k e e', (∀ v, l.Reads Carried.bodyArg I.exact v → e' (.old v) = e v) → atBody k e e')
    (hafter : ∀ n ≤ N, ∀ σ τ, l.exits S env n = some σ → Related l cand I n σ τ →
      ∃ τ', run S F.after τ = some τ' ∧ atEnd n σ τ') :
    SimulatesTo S l (carryAs l cand F) env env' N atCond atBody atEnd := by
  have hmem : ∀ c ∈ l.carried.filter cand, c ∈ l.carried ∧ cand c = true := fun c hc => mem_filter.mp hc
  obtain ⟨base, hbefore, hold, hrep⟩ : ∃ base, run S ((l.carried.filter cand).flatMap F.before) env' = some base ∧
      (∀ w, (∀ v j, w ≠ FormName.initial v j) → base w = env' w) ∧
        ∀ c ∈ l.carried.filter cand, (I.rep c 0 (base (F.operand c)) (env c.operand) ∧
          I.initial c fun j => base (.initial c.result j)) ∧ ∀ v, base (.old v) = env v := by
    refine exists_run_flatMap_own (A := fun c v => (∃ u, v = .old u) ∨ ∃ j, v = .initial c.result j)
      (Q := fun c e => (I.rep c 0 (e (F.operand c)) (env c.operand) ∧ I.initial c fun j => e (.initial c.result j)) ∧
        ∀ v, e (.old v) = env v)
      (fun c _ e e' he => ?_) (fun c hc e he => ?_) (fun c _ i hi hkeep => ?_) ?_
    · have hinitial : (fun j => e' (.initial c.result j)) = fun j => e (.initial c.result j) :=
        funext fun j => he _ (.inr ⟨j, rfl⟩)
      have hoperand : e' (F.operand c) = e (F.operand c) := he _ (hF.operand c)
      have hsame : ∀ v, e' (.old v) = e (.old v) := fun v => he _ (.inl ⟨v, rfl⟩)
      rw [hoperand, hinitial]
      exact fun ⟨h, hv⟩ => ⟨h, fun v => (hsame v).trans (hv v)⟩
    · have hsame : ∀ v, e (.old v) = env v := fun v => (he (.old v) fun _ _ => nofun).trans (henv v)
      obtain ⟨e', he', h⟩ := hcomputes.before c (hmem c hc).1 (hmem c hc).2 e hsame
      refine ⟨e', he', h, fun v => (run_frame he' fun i hi => ?_).trans (hsame v)⟩
      obtain ⟨j, hj⟩ := hF.before c i hi
      exact fun heq => nomatch heq.symm.trans hj
    · obtain ⟨j, hj⟩ := hF.before c i hi
      exact hkeep _ _ hj
    · refine (pairwise_map.mp (hl.results.sublist (filter_sublist.map _))).imp fun hne i hi hown => ?_
      obtain ⟨j, hj⟩ := hF.before _ i hi
      rcases hown with ⟨v, hv⟩ | ⟨j', hj'⟩
      · exact nomatch hv.symm.trans hj
      · exact hne (FormName.initial.inj (hj'.symm.trans hj)).1
  refine simulatesTo_of_relation (R := Related l cand I) hbefore ⟨fun v hv => ?_, fun c hc hcand => ?_,
    fun c hc hcand => ?_⟩ ?_ ?_ hafter
  · refine assign_old_carried (fun _ => rfl) (fun _ => rfl) hl.results (fun c hc hcand => ?_) hv fun _ => ?_
    · rw [carried_kept hcand]
      exact (hold (.old c.operand) fun _ _ => nofun).trans (henv c.operand)
    · exact (hold (.old v) fun _ _ => nofun).trans (henv v)
  · have hstart : (carryAs l cand F).loop.start base (.form c.result) = base (F.carried cand c).operand :=
      assign_form (fun _ => rfl) (fun _ => rfl) hl.results hc hcand
    rw [hstart, carried_candidate hcand]
    change I.rep c 0 _ (assign l.carried Carried.result (fun c => env c.operand) env c.result)
    rw [assign_of_mem hl.results hc]
    exact (hrep c (mem_filter.mpr ⟨hc, hcand⟩)).1.1
  · have hstart : ∀ j, (carryAs l cand F).loop.start base (.initial c.result j) = base (.initial c.result j) := fun j =>
      assign_other (fun _ => rfl) (fun _ => rfl) (fun _ _ => nofun) fun _ _ _ => nofun
    rw [funext hstart]
    exact (hrep c (mem_filter.mpr ⟨hc, hcand⟩)).1.2
  · intro k hk σ τ e hσ hR he
    set e₀ := assign (l.carried.map (F.carried cand)) Carried.condArg (fun c => τ c.result) τ with he₀
    obtain ⟨hold₀, hkept, hforms, hinitial⟩ : (∀ v, (∀ c ∈ l.carried, c.result ≠ v) →
        (∀ c ∈ l.carried, cand c = true → c.condArg ≠ v) →
          e₀ (.old v) = assign l.carried Carried.condArg (fun c => σ c.result) σ v) ∧
        (∀ c ∈ l.carried, cand c = false → e₀ (.old c.condArg) = σ c.result) ∧
          (∀ c ∈ l.carried, cand c = true → I.rep c k (e₀ (.form c.condArg)) (σ c.result)) ∧
            ∀ v j, e₀ (.initial v j) = τ (.initial v j) :=
      hR.assign_eq hl (fun _ => rfl) (fun _ => rfl) hl.condArgs
    have houtside : ∀ v, outside v → assign l.carried Carried.condArg (fun c => σ c.result) σ v = env v := fun v hv => by
      rw [assign_of_ne fun c hc => (hl.outside v hv c hc).1,
        Loop.entering_outside hσ fun c hc => (hl.outside v hv c hc).2.2]
    have houtside₀ : ∀ v, outside v → e₀ (.old v) = env v := fun v hv =>
      (hold₀ v (fun c hc => (hl.outside v hv c hc).2.2) fun c hc _ => (hl.outside v hv c hc).1).trans (houtside v hv)
    obtain ⟨e₁, he₁, hagree, -⟩ := run_rebuilt Carried.condArg hF hl.condArgs
      (fun v hv c hc => ⟨(hl.outside v hv c hc).1, (hl.outside v hv c hc).2.2⟩) hF.condHead hold₀ houtside
      (hcomputes.condHead k hk σ e hσ he e₀ houtside₀ hkept) (fun c hc hcand e hout hH hsame hform => by
        rw [assign_of_mem hl.condArgs hc]
        refine hcomputes.rebuild k hk σ hσ c hc hcand _ e hout hH ?_ (hform ▸ hforms c hc hcand)
        rw [funext fun j => (hsame c.result j).trans (hinitial c.result j)]
        exact hR.initial c hc hcand)
    obtain ⟨e', he', hagree'⟩ := run_renamed (fun i hi v hv c hc => ⟨hl.condOperands i hi v hv c hc,
      hreads.condOps i hi v hv c hc⟩) hagree he
    refine ⟨e', ?_, hagree' _ fun c hc => ⟨hl.test c hc, hreads.test c hc⟩, hatCond k e e' hagree'⟩
    rw [Loop.condEnv, carryAs]
    change run S (F.condHead ++ _) e₀ = _
    rw [← append_assoc, run_append, he₁, bind_some, he']
  · intro k hk σ τ e hσ hR htrue he
    obtain ⟨d, hd, -⟩ := bind_eq_some_iff.mp htrue
    set e₀ := assign (l.carried.map (F.carried cand)) Carried.bodyArg (fun c => τ c.result) τ with he₀
    obtain ⟨hold₀, hkept, hforms, hinitial⟩ : (∀ v, (∀ c ∈ l.carried, c.result ≠ v) →
        (∀ c ∈ l.carried, cand c = true → c.bodyArg ≠ v) →
          e₀ (.old v) = assign l.carried Carried.bodyArg (fun c => σ c.result) σ v) ∧
        (∀ c ∈ l.carried, cand c = false → e₀ (.old c.bodyArg) = σ c.result) ∧
          (∀ c ∈ l.carried, cand c = true → I.rep c k (e₀ (.form c.bodyArg)) (σ c.result)) ∧
            ∀ v j, e₀ (.initial v j) = τ (.initial v j) :=
      hR.assign_eq hl (fun _ => rfl) (fun _ => rfl) hl.bodyArgs
    have houtside : ∀ v, outside v → assign l.carried Carried.bodyArg (fun c => σ c.result) σ v = env v := fun v hv => by
      rw [assign_of_ne fun c hc => (hl.outside v hv c hc).2.1,
        Loop.entering_outside hσ fun c hc => (hl.outside v hv c hc).2.2]
    have houtside₀ : ∀ v, outside v → e₀ (.old v) = env v := fun v hv =>
      (hold₀ v (fun c hc => (hl.outside v hv c hc).2.2) fun c hc _ => (hl.outside v hv c hc).2.1).trans (houtside v hv)
    obtain ⟨e₁, he₁, hagree, hinitial₁⟩ := run_rebuilt Carried.bodyArg hF hl.bodyArgs
      (fun v hv c hc => (hl.outside v hv c hc).2) hF.bodyHead hold₀ houtside
      (hcomputes.bodyHead k hk σ d hσ hd e₀ houtside₀ hkept) (fun c hc hcand e hout hH hsame hform => by
        rw [assign_of_mem hl.bodyArgs hc]
        refine hcomputes.rebuild k hk σ hσ c hc hcand _ e hout hH ?_ (hform ▸ hforms c hc hcand)
        rw [funext fun j => (hsame c.result j).trans (hinitial c.result j)]
        exact hR.initial c hc hcand)
    obtain ⟨e', he', hagree', hyields⟩ := hcomputes.body k hk σ e hσ htrue he e₁ hagree (fun c hc hcand => by
      rw [funext fun j => (hinitial₁ c.result j).trans (hinitial c.result j)]
      exact hR.initial c hc hcand) fun c hc hcand => ⟨_, hR.forms c hc hcand⟩
    refine ⟨e', ?_, hatBody k e e' hagree', fun hlt => ⟨fun v hv => ?_, fun c hc hcand => ?_, fun c hc hcand => ?_⟩⟩
    · rw [Loop.bodyEnv, carryAs]
      change run S (F.bodyHead ++ _) e₀ = _
      rw [← append_assoc, run_append, he₁, bind_some, he']
    · refine assign_old_carried (fun _ => rfl) (fun _ => rfl) hl.results (fun c hc hcand => ?_) hv fun _ => hR.kept v hv
      rw [carried_kept hcand]
      exact hagree' c.yield fun c' hc' => ⟨hl.yields c hc c' hc', hreads.yields c hc c' hc'⟩
    · have hnext : assign (carryAs l cand F).loop.carried Carried.result (fun c => e' c.yield) τ (.form c.result) =
          e' (F.carried cand c).yield := assign_form (fun _ => rfl) (fun _ => rfl) hl.results hc hcand
      rw [hnext, carried_candidate hcand, assign_of_mem hl.results hc]
      exact hyields c hc hcand hlt
    · have hnext : ∀ j, assign (carryAs l cand F).loop.carried Carried.result (fun c => e' c.yield) τ
          (.initial c.result j) = τ (.initial c.result j) := fun j =>
        assign_other (fun _ => rfl) (fun _ => rfl) (fun _ _ => nofun) fun _ _ _ => nofun
      rw [funext hnext]
      exact hR.initial c hc hcand

theorem run_results {code : Carried V → List (Instr O (FormName V))} (hl : l.Scoped outside)
    (hnames : ∀ c, ∀ i ∈ code c, i.result = .old c.result ∨ ∃ j, i.result = .part c.result j)
    (hold : ∀ v, (∀ c ∈ l.carried, cand c = true → c.result ≠ v) → e₀ (.old v) = σ v)
    (hcode : ∀ c ∈ l.carried, cand c = true → ∀ e : FormName V → D,
      (∀ v, (∀ c ∈ l.carried, cand c = true → c.result ≠ v) → e (.old v) = σ v) →
        (∀ v, e (.shared v) = e₀ (.shared v)) → (∀ v j, e (.initial v j) = e₀ (.initial v j)) →
          e (.form c.result) = e₀ (.form c.result) →
            ∃ e', run S (code c) e = some e' ∧ e' (.old c.result) = σ c.result) :
    ∃ e, run S ((l.carried.filter cand).flatMap code) e₀ = some e ∧ ∀ v, e (.old v) = σ v := by
  have hmem : ∀ c ∈ l.carried.filter cand, c ∈ l.carried ∧ cand c = true := fun c hc => mem_filter.mp hc
  obtain ⟨e, he, hsame, hresults⟩ : ∃ e, run S ((l.carried.filter cand).flatMap code) e₀ = some e ∧
      (∀ w, ((∀ c ∈ l.carried, cand c = true → w ≠ .old c.result) ∧ ∀ v j, w ≠ FormName.part v j) → e w = e₀ w) ∧
        ∀ c ∈ l.carried.filter cand, e (.old c.result) = σ c.result := by
    refine exists_run_flatMap (fun c hc e he => ?_) (fun c hc i hi hkeep => ?_) ?_
    · refine hcode c (hmem c hc).1 (hmem c hc).2 e (fun v hv => ?_) (fun v => ?_) (fun v j => ?_) ?_
      · rw [he (.old v) ⟨fun c' hc' hcand heq => hv c' hc' hcand (FormName.old.inj heq).symm, fun _ _ => nofun⟩,
          hold v hv]
      · exact he (.shared v) ⟨fun _ _ _ => nofun, fun _ _ => nofun⟩
      · exact he (.initial v j) ⟨fun _ _ _ => nofun, fun _ _ => nofun⟩
      · exact he (.form _) ⟨fun _ _ _ => nofun, fun _ _ => nofun⟩
    · rcases hnames c i hi with hres | ⟨j, hres⟩
      · exact hkeep.1 c (hmem c hc).1 (hmem c hc).2 hres
      · exact hkeep.2 _ j hres
    · refine (pairwise_map.mp (hl.results.sublist (filter_sublist.map _))).imp fun hne i hi heq => ?_
      rcases hnames _ i hi with hres | ⟨j, hres⟩
      · exact hne (FormName.old.inj (heq.symm.trans hres))
      · exact nomatch heq.symm.trans hres
  refine ⟨e, he, fun v => ?_⟩
  by_cases hv : ∃ c ∈ l.carried, cand c = true ∧ c.result = v
  · obtain ⟨c, hc, hcand, rfl⟩ := hv
    exact hresults c (mem_filter.mpr ⟨hc, hcand⟩)
  · have hne : ∀ c ∈ l.carried, cand c = true → c.result ≠ v := fun c hc hcand heq => hv ⟨c, hc, hcand, heq⟩
    rw [hsame (.old v) ⟨fun c hc hcand heq => hne c hc hcand (FormName.old.inj heq).symm, fun _ _ => nofun⟩, hold v hne]

end

end Straightline
