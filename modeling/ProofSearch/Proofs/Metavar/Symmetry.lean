import ProofSearch.Proofs.Metavar.MostGeneral

/-!
# The order of two terms

Swapping the two terms of a unification changes which of two open variables is bound to the other,
and nothing else as long as no variable is compared that cannot be assigned.

1. `Alike`: contexts that give every term the same value, up to the names of open variables.
2. `demand_mirror`: what equations with swapped sides ask for first.
3. `Alike.assign`: a binding and its mirror image lead to contexts that are alike.
4. `stalls`: a variable that cannot be assigned stands on the left of one that can be.
   `unifyAll_mirror`: only there do the two orders part.
5. `unify_swap`: all of this for a solver.  `unify_one_way`: two variables that are unified in one
   order only.
-/

namespace ProofSearch

namespace Equation

/-- The equation read from right to left. -/
def swap (e : Equation) : Equation := ⟨e.right, e.left⟩

theorem map_pairs (f : Term → Term) : ∀ ls rs : List Term,
    (pairs ls rs).map (·.map f) = pairs (ls.map f) (rs.map f)
  | [], _ | _ :: _, [] => by simp [pairs]
  | _ :: ls, _ :: rs => congrArg (_ :: ·) (map_pairs f ls rs)

theorem swap_pairs : ∀ ls rs : List Term, (pairs ls rs).map swap = pairs rs ls
  | [], [] | [], _ :: _ | _ :: _, [] => rfl
  | _ :: ls, _ :: rs => congrArg (_ :: ·) (swap_pairs ls rs)

end Equation

theorem Term.subst_eq_var {σ : Var → Term} {t : Term} {y : Var} (h : t.subst σ = .var y) :
    ∃ x, t = .var x ∧ σ x = .var y := by
  cases t with
  | const | hyp | app => cases h
  | var x => exact ⟨x, rfl, h⟩

namespace Context

variable {m n k : Context} {x y : Var} {l r t u : Term} {es rest : List Equation}

/-! ## Contexts with the same values -/

/-- If `n` gives the variables of `m` the values of their terms, and the same variables are delayed,
instantiating in `m` first makes no difference to `n`. -/
theorem Grounded.instantiate_absorbed (hx : m.Grounded x) (hn : ∀ y, n.Grounded y)
    (hvalue : ∀ y t, m.binding? y = some (.value t) → n.instantiate (.var y) = n.instantiate t)
    (hdelayed : ∀ y p, m.binding? y = some (.delayed p) → n.binding? y = some (.delayed p)) :
    n.instantiate (m.instantiate (.var x)) = n.instantiate (.var x) := by
  induction hx with
  | intro x hacc ih =>
    have hx : m.Grounded x := .intro x hacc
    cases hb : m.binding? x with
    | none => rw [instantiate_open hb]
    | some b =>
      cases b with
      | value t =>
        rw [instantiate_value hx hb, instantiate_instantiate, hvalue x t hb]
        exact Term.subst_congr fun y hy => ih y (.inl ⟨t, hb, hy⟩)
      | delayed p =>
        have hp := ih p (.inr hb)
        rw [instantiate_delayed hx hb]
        split
        · rfl
        · next hclosed =>
          have hself : n.instantiate (m.instantiate (.var p)) = m.instantiate (.var p) :=
            instantiate_closed (by simpa using hclosed)
          rw [hp] at hself
          rw [hp, instantiate_delayed (hn x) (hdelayed x p hb), hself, if_neg hclosed]

/-- Two contexts without cycles.  Instantiating in one of them first makes no difference to the
other, and the same variables are declared and delayed. -/
structure Alike (m n : Context) : Prop where
  acyclic : m.Acyclic ∧ n.Acyclic
  left : ∀ t, n.instantiate (m.instantiate t) = n.instantiate t
  right : ∀ t, m.instantiate (n.instantiate t) = m.instantiate t
  delayed : ∀ x p, m.binding? x = some (.delayed p) ↔ n.binding? x = some (.delayed p)
  declared : ∀ x, m.isDeclared x = n.isDeclared x

namespace Alike

theorem refl (h : m.Acyclic) : Alike m m where
  acyclic := ⟨h, h⟩
  left _ := instantiate_extends (.refl m) fun x _ => h.grounded x
  right _ := instantiate_extends (.refl m) fun x _ => h.grounded x
  delayed _ _ := Iff.rfl
  declared _ := rfl

theorem symm (h : Alike m n) : Alike n m where
  acyclic := h.acyclic.symm
  left := h.right
  right := h.left
  delayed x p := (h.delayed x p).symm
  declared x := (h.declared x).symm

/-- A variable that one context leaves as it is becomes a variable in the other. -/
theorem exists_var (h : Alike m n) (hx : m.instantiate (.var x) = .var x) :
    ∃ y, n.instantiate (.var x) = .var y ∧ m.instantiate (.var y) = .var x := by
  obtain ⟨y, hy, hyx⟩ := Term.subst_eq_var ((h.right (.var x)).trans hx)
  exact ⟨y, hy, hyx⟩

/-- An open variable of one context becomes an open variable of the other. -/
theorem exists_open (h : Alike m n) (hx : m.binding? x = none) :
    ∃ y, n.instantiate (.var x) = .var y ∧ m.instantiate (.var y) = .var x ∧
      n.binding? y = none := by
  obtain ⟨y, hy, hyx⟩ := h.exists_var (instantiate_open hx)
  refine ⟨y, hy, hyx, ?_⟩
  have hleft := (h.acyclic.2.grounded x).of_occurs (y := y) (by simp [hy, Term.occurs])
  cases hb : n.binding? y with
  | none => rfl
  | some b =>
    cases b with
    | value t => exact (hleft.2 t hb).elim
    | delayed p =>
      -- a delayed variable has itself or a closed term as its value, and not an open variable
      have hdelayed := (h.delayed y p).2 hb
      rw [instantiate_delayed (h.acyclic.1.grounded y) hdelayed] at hyx
      split at hyx
      · cases hyx
        cases hx.symm.trans hdelayed
      · next hclosed => exact (hclosed (by rw [hyx]; rfl)).elim

/-- The open variables below a term are the same, up to their names. -/
theorem reaches (h : Alike m n) {v w : Var} (hr : n.Reaches x v)
    (hw : m.instantiate (.var v) = .var w) (hopen : m.binding? w = none) : m.Reaches x w := by
  have hm := h.acyclic.1.grounded
  have hn := h.acyclic.2.grounded
  induction hr using Relation.ReflTransGen.head_induction_on with
  | refl => exact ((hm v).of_occurs (y := w) (by simp [hw, Term.occurs])).1
  | @head x z hxz _ ih =>
    obtain ⟨t, hb, hz⟩ | hb := hxz
    · -- `t` mentions `z` and has the same value as `x`, in both contexts
      obtain ⟨a, ha, haw⟩ := (hm z).exists_occurs ih hopen
      have hvalue : m.instantiate t = m.instantiate (.var x) := by
        rw [← h.right t, ← instantiate_value (hn x) hb, h.right]
      have hocc : (m.instantiate (.var x)).occurs a = true := by
        rw [← hvalue, occurs_instantiate]
        exact ⟨z, hz, ha⟩
      exact ((hm x).of_occurs hocc).1.trans haw
    · exact .head (.inr ((h.delayed x z).2 hb)) ih

theorem mem_openVars (h : Alike m n) {v w : Var} (hv : v ∈ n.openVars t)
    (hw : m.instantiate (.var v) = .var w) (hopen : m.binding? w = none) : w ∈ m.openVars t := by
  obtain ⟨-, x, hx, hr⟩ := (Context.mem_openVars h.acyclic.2.grounded).1 hv
  exact (Context.mem_openVars h.acyclic.1.grounded).2 ⟨hopen, x, hx, h.reaches hr hw hopen⟩

end Alike

/-! ## Equations with swapped sides -/

theorem instantiateAll_absorbed (h : ∀ t, n.instantiate (m.instantiate t) = n.instantiate t)
    (es : List Equation) : n.instantiateAll (m.instantiateAll es) = n.instantiateAll es := by
  simp [instantiateAll, Equation.map, Function.comp_def, h]

theorem instantiateAll_swap (m : Context) (es : List Equation) :
    m.instantiateAll (es.map .swap) = (m.instantiateAll es).map .swap := by
  simp [instantiateAll, Function.comp_def, Equation.map, Equation.swap]

/-- The binding of `y` to `u` says in `n` what the binding of `x` to `t` says. -/
def BindMirror (n : Context) (x : Var) (t : Term) (y : Var) (u : Term) : Prop :=
  n.instantiate (.var x) = .var y ∧ n.instantiate t = u ∨
    n.instantiate t = .var y ∧ n.instantiate (.var x) = u

/-- What an equation asks for, and what it asks for once its sides are swapped and instantiated in
`n`. -/
inductive StepMirror (n : Context) : UnifyStep → UnifyStep → Prop
  | done : StepMirror n .done .done
  | clash : StepMirror n .clash .clash
  | split (es : List Equation) : StepMirror n (.split es) (.split (n.instantiateAll (es.map .swap)))
  | bind {x y : Var} {t u : Term} : n.BindMirror x t y u → StepMirror n (.bind x t) (.bind y u)

theorem instantiate_app (m : Context) (f : String) (ts : List Term) :
    m.instantiate (.app f ts) = .app f (ts.map m.instantiate) :=
  congrArg (Term.app f) (Term.substList_eq_map ..)

theorem stepMirror_apps (f g : String) (xs ys : List Term) :
    StepMirror n (unifyStep (.app f xs) (.app g ys))
      (unifyStep (n.instantiate (.app g ys)) (n.instantiate (.app f xs))) := by
  simp only [instantiate_app, unifyStep, List.length_map, eq_comm (a := g),
    eq_comm (a := ys.length)]
  split
  · rw [← Equation.map_pairs, ← Equation.swap_pairs xs ys]
    exact .split _
  · exact .clash

/-- The sides of an equation are swapped and instantiated in a context that is alike. -/
theorem unifyStep_mirror (h : Alike m n) (hl : m.instantiate l = l) (hr : m.instantiate r = r) :
    StepMirror n (unifyStep l r) (unifyStep (n.instantiate r) (n.instantiate l)) := by
  have hname (a b : String) : StepMirror n (if a = b then .done else .clash)
      (if b = a then .done else .clash) := by
    by_cases hab : a = b
    · rw [if_pos hab, if_pos hab.symm]
      exact .done
    · rw [if_neg hab, if_neg (Ne.symm hab)]
      exact .clash
  cases l with
  | var x =>
    obtain ⟨y, hy, hyx⟩ := h.exists_var hl
    rw [hy]
    cases r with
    | var z =>
      obtain ⟨w, hw, hwz⟩ := h.exists_var hr
      rw [hw]
      by_cases hxz : x = z
      · subst hxz
        obtain rfl : y = w := Term.var.inj (hy.symm.trans hw)
        rw [unifyStep, unifyStep, if_pos rfl, if_pos rfl]
        exact .done
      · have hne : w ≠ y := by
          rintro rfl
          exact hxz (Term.var.inj (hyx.symm.trans hwz))
        rw [unifyStep, unifyStep, if_neg hxz, if_neg hne]
        exact .bind (.inr ⟨hw, hy⟩)
    | const | hyp | app => exact .bind (.inl ⟨hy, rfl⟩)
  | const a =>
    cases r with
    | var z =>
      obtain ⟨w, hw, -⟩ := h.exists_var hr
      rw [hw]
      exact .bind (.inl ⟨hw, rfl⟩)
    | const b => exact hname a b
    | hyp | app => exact .clash
  | hyp a =>
    cases r with
    | var z =>
      obtain ⟨w, hw, -⟩ := h.exists_var hr
      rw [hw]
      exact .bind (.inl ⟨hw, rfl⟩)
    | hyp b => exact hname a b
    | const | app => exact .clash
  | app f xs =>
    cases r with
    | var z =>
      obtain ⟨w, hw, -⟩ := h.exists_var hr
      rw [hw]
      exact .bind (.inl ⟨hw, rfl⟩)
    | app g ys => exact stepMirror_apps f g xs ys
    | const | hyp => exact .clash

/-- The arguments of instantiated terms are instantiated. -/
theorem instantiateAll_arguments (hl : m.instantiate l = l) (hr : m.instantiate r = r)
    (h : unifyStep l r = .split es) : m.instantiateAll es = es := by
  revert h
  fun_cases unifyStep l r <;> intro h
  case case9 f xs g ys hfg =>
    cases h
    rw [instantiate_app] at hl hr
    rw [instantiateAll, Equation.map_pairs, (Term.app.inj hl).2, (Term.app.inj hr).2]
  all_goals cases h

/-- What equations ask for, and what they ask for once their sides are swapped and instantiated in
`n`. -/
inductive DemandMirror (n : Context) : Demand → Demand → Prop
  | solved : DemandMirror n .solved .solved
  | clash : DemandMirror n .clash .clash
  | bind {x y : Var} {t u : Term} {rest : List Equation} : n.BindMirror x t y u →
      DemandMirror n (.bind x t rest) (.bind y u (n.instantiateAll (rest.map .swap)))

theorem demand_mirror (h : Alike m n) (hes : m.instantiateAll es = es) :
    DemandMirror n (demand es) (demand (n.instantiateAll (es.map .swap))) := by
  have hcons {l r : Term} {rest : List Equation} {step : UnifyStep} (hs : unifyStep l r = step)
      (hes : m.instantiateAll (⟨l, r⟩ :: rest) = ⟨l, r⟩ :: rest) :
      ∃ mirrored, unifyStep (n.instantiate r) (n.instantiate l) = mirrored ∧
        StepMirror n step mirrored ∧ m.instantiateAll rest = rest ∧
        ∀ fs, step = .split fs → m.instantiateAll fs = fs := by
    obtain ⟨he, hrest⟩ := List.cons.inj hes
    obtain ⟨hl, hr⟩ := Equation.mk.inj he
    subst hs
    exact ⟨_, rfl, unifyStep_mirror h hl hr, hrest, fun _ => instantiateAll_arguments hl hr⟩
  have hswap (l r : Term) (rest : List Equation) :
      n.instantiateAll ((⟨l, r⟩ :: rest).map .swap) =
        ⟨n.instantiate r, n.instantiate l⟩ :: n.instantiateAll (rest.map .swap) := rfl
  fun_induction demand es with
  | case1 =>
    rw [List.map_nil, instantiateAll, List.map_nil, demand]
    exact .solved
  | case2 l r rest hs ih =>
    obtain ⟨_, hs', ⟨⟩, hrest, -⟩ := hcons hs hes
    rw [hswap, demand, hs']
    exact ih hrest
  | case3 l r rest fs hs ih =>
    obtain ⟨_, hs', ⟨⟩, hrest, hsplit⟩ := hcons hs hes
    rw [hswap, demand, hs']
    dsimp only
    rw [← instantiateAll_append, ← List.map_append]
    exact ih (by rw [instantiateAll_append, hsplit fs rfl, hrest])
  | case4 l r rest x t hs =>
    obtain ⟨_, hs', hbind, -⟩ := hcons hs hes
    cases hbind with
    | bind hxy =>
      rw [hswap, demand, hs']
      exact .bind hxy
  | case5 l r rest hs =>
    obtain ⟨_, hs', ⟨⟩, -⟩ := hcons hs hes
    rw [hswap, demand, hs']
    exact .clash

/-! ## One binding -/

/-- The variable is declared and open. -/
def canAssign (m : Context) (x : Var) : Bool := m.isDeclared x && !m.isAssigned x

theorem canAssign_iff : m.canAssign x = true ↔ m.isDeclared x = true ∧ m.binding? x = none := by
  simp [canAssign, isAssigned]

theorem canAssign_iff_assignable : m.canAssign x = true ↔ ∃ d, m.assignable x = .ok d := by
  simp only [assignable_iff_open, canAssign_iff]
  constructor
  · rintro ⟨hd, hx⟩
    obtain ⟨d, hd⟩ := exists_decl? hd
    exact ⟨d, hd, hx⟩
  · rintro ⟨d, hd, hx⟩
    exact ⟨isDeclared_of_decl? hd, hx⟩

/-- A variable that can be assigned becomes one that can be. -/
theorem Alike.canAssign (h : Alike m n) (hx : m.canAssign x = true)
    (hy : n.instantiate (.var x) = .var y) : n.canAssign y = true := by
  obtain ⟨hd, hx⟩ := canAssign_iff.1 hx
  obtain ⟨z, hz, hzx, hopen⟩ := h.exists_open hx
  obtain rfl : z = y := Term.var.inj (hz.symm.trans hy)
  refine canAssign_iff.2 ⟨?_, hopen⟩
  rw [← h.declared]
  -- an undeclared variable is bound in neither context
  by_contra hnot
  rw [instantiate_open (binding?_of_not_declared (by simpa using hnot))] at hzx
  cases hzx
  exact hnot hd

theorem openVars_instantiate (h : m.Acyclic) (t : Term) :
    m.openVars (m.instantiate t) = m.openVars t := by
  rw [openVars, instantiate_extends (.refl m) fun x _ => h.grounded x, openVars]

/-- What the occurs check sees is among the open variables below a term. -/
theorem mem_openVars_of_occurs (h : m.Acyclic) (hx : m.binding? x = none)
    (ho : (m.instantiate t).occurs x = true) : x ∈ m.openVars t := by
  obtain ⟨y, hy, hyx⟩ := occurs_instantiate.1 ho
  exact (mem_openVars h.grounded).2 ⟨hx, y, hy, ((h.grounded y).of_occurs hyx).1⟩

/-- A later context that makes one binding hold makes its mirror image hold. -/
theorem BindMirror.equal_iff (hxy : n.BindMirror x t y u)
    (hk : ∀ s, k.instantiate (n.instantiate s) = k.instantiate s) :
    k.instantiate (.var x) = k.instantiate t ↔ k.instantiate (.var y) = k.instantiate u := by
  rcases hxy with ⟨hx, ht⟩ | ⟨ht, hx⟩
  · rw [← hx, ← ht, hk, hk]
  · rw [← hx, ← ht, hk, hk, eq_comm]

/-- The mirror image of an assignment that closes no cycle closes none. -/
theorem BindMirror.not_mem_openVars (h : Alike m n) (hxy : n.BindMirror x t y u)
    (hx : m.binding? x = none) (hy : n.binding? y = none) (hnot : x ∉ m.openVars t) :
    y ∉ n.openVars u := by
  intro hmem
  rcases hxy with ⟨hvalue, rfl⟩ | ⟨hvalue, rfl⟩
  · rw [openVars_instantiate h.acyclic.2] at hmem
    refine hnot (h.mem_openVars hmem ?_ hx)
    rw [← hvalue, h.right, instantiate_open hx]
  · rw [openVars_instantiate h.acyclic.2] at hmem
    obtain ⟨z, hz, -, hopen⟩ := h.symm.exists_open hy
    obtain ⟨-, w, hw, hr⟩ :=
      (Context.mem_openVars h.acyclic.1.grounded).1 (h.mem_openVars hmem hz hopen)
    obtain rfl : x = w := by simpa [Term.occurs] using hw
    obtain rfl := hr.eq_of_open hx
    refine hnot (mem_openVars_of_occurs h.acyclic.1 hx ?_)
    rw [← h.right, hvalue, hz]
    simp [Term.occurs]

/-- A context that goes on from one of two contexts that are alike, and makes an assignment of the
other one hold. -/
theorem Alike.instantiate_bind {m' n' : Context} {d : VarDecl} (h : Alike m n)
    (hm : m' = m.bind x d (.value t)) (hm' : m'.Acyclic) (he : n.Extends n') (hn' : n'.Acyclic)
    (heq : n'.instantiate (.var x) = n'.instantiate t) (s : Term) :
    n'.instantiate (m'.instantiate s) = n'.instantiate s := by
  have hpast (s : Term) : n'.instantiate (n.instantiate s) = n'.instantiate s :=
    instantiate_extends he fun z _ => hn'.grounded z
  rw [instantiate_instantiate]
  refine Term.subst_congr fun v _ => (hm'.grounded v).instantiate_absorbed hn'.grounded
    (fun z w hz => ?_) fun z p hz => ?_
  · rw [hm, binding?_bind] at hz
    split at hz
    · next hzx =>
      cases hz
      rw [hzx, heq]
    · rw [← hpast, ← h.left, instantiate_value (h.acyclic.1.grounded z) hz, h.left, hpast]
  · rw [hm, binding?_bind] at hz
    split at hz
    · cases hz
    · exact he z _ ((h.delayed z p).1 hz)

theorem binding?_bind_delayed {d : VarDecl} (hx : m.binding? x = none) (z p : Var) :
    (m.bind x d (.value t)).binding? z = some (.delayed p) ↔ m.binding? z = some (.delayed p) := by
  rw [binding?_bind]
  split
  · next hz => simp [hz, hx]
  · rfl

/-- A binding that closes no cycle and its mirror image lead to contexts that are alike. -/
theorem Alike.assign {m' : Context} (h : Alike m n) (hm : m.assign x t = .ok m')
    (hm' : m'.Acyclic) (hxy : n.BindMirror x t y u) (hy : n.canAssign y = true) :
    ∃ n', n.assign y u = .ok n' ∧ Alike m' n' := by
  obtain ⟨hx, hxt⟩ := binding?_of_assign hm
  obtain ⟨d, hd, ho, rfl⟩ := assign_eq_ok_iff.1 hm
  obtain ⟨e, he⟩ := canAssign_iff_assignable.1 hy
  have hyopen := (assignable_iff_open.1 he).2
  have hnot : y ∉ n.openVars u := hxy.not_mem_openVars h hx hyopen
    ((acyclic_bind_iff h.acyclic.1.grounded hx).1.1 hm')
  have hn' : (n.bind y e (.value u)).Acyclic :=
    (acyclic_bind_iff h.acyclic.2.grounded hyopen).1.2 hnot
  have hassign : n.assign y u = .ok (n.bind y e (.value u)) :=
    assign_eq_ok_iff.2 ⟨e, he, (Bool.not_eq_true _).mp fun hocc =>
      hnot (mem_openVars_of_occurs h.acyclic.2 hyopen hocc), rfl⟩
  have hextm : m.Extends (m.bind x d (.value t)) := extends_bind hx d _
  have hextn : n.Extends (n.bind y e (.value u)) := extends_bind hyopen e _
  -- each of the two contexts makes both bindings hold
  have hleft : (n.bind y e (.value u)).instantiate (.var x) =
      (n.bind y e (.value u)).instantiate t :=
    (hxy.equal_iff fun s => instantiate_extends hextn fun z _ => hn'.grounded z).2
      (instantiate_value (hn'.grounded y) (binding?_of_assign hassign).2)
  have hright : (m.bind x d (.value t)).instantiate (.var y) =
      (m.bind x d (.value t)).instantiate u := by
    refine (hxy.equal_iff fun s => ?_).1 (instantiate_value (hm'.grounded x) hxt)
    rw [← instantiate_extends hextm fun z _ => hm'.grounded z, h.right,
      instantiate_extends hextm fun z _ => hm'.grounded z]
  refine ⟨_, hassign, ⟨hm', hn'⟩, h.instantiate_bind rfl hm' hextn hn' hleft,
    h.symm.instantiate_bind rfl hn' hextm hm' hright, fun z p => ?_, fun z => ?_⟩
  · rw [binding?_bind_delayed hx, binding?_bind_delayed hyopen, h.delayed]
  · rw [isDeclared_congr (decl?_bind_of_decl? (assignable_iff_open.1 hd).1 _ z),
      isDeclared_congr (decl?_bind_of_decl? (assignable_iff_open.1 he).1 _ z), h.declared]

/-! ## Runs -/

/-- The term is a variable that can be assigned. -/
def isOpenVar (m : Context) : Term → Bool
  | .var x => m.canAssign x
  | _ => false

/-- Solving the equations comes to a variable on the left that cannot be assigned, and gives up
although there is one on the right that can be. -/
def stalls (m : Context) (equations : List Equation) : Bool :=
  match demand equations with
  | .solved => false
  | .clash => false
  | .bind x t rest =>
    match _hassign : m.assign x t with
    | .error _ => !m.canAssign x && m.isOpenVar t
    | .ok n => n.stalls (n.instantiateAll rest)
termination_by m.openCount
decreasing_by
  have := openCount_assign _hassign
  omega

theorem unifyAll_of_stalls (h : m.stalls es = true) : m.unifyAll es = none := by
  fun_induction stalls m es with
  | case1 => cases h
  | case2 => cases h
  | case3 m es x t rest hd e ha =>
    rw [unifyAll, hd]
    dsimp only
    rw [ha]
  | case4 m es x t rest hd n ha ih =>
    rw [unifyAll, hd]
    dsimp only
    rw [ha]
    exact ih h

theorem extends_unifyAll (h : m.unifyAll es = some n) : m.Extends n := by
  fun_induction unifyAll m es with
  | case1 =>
    cases h
    exact .refl _
  | case2 => cases h
  | case3 => cases h
  | case4 m es x t rest hd k ha ih =>
    exact (extends_assign ha).trans (ih h)

theorem canAssign_of_assign (h : m.assign x t = .ok n) : m.canAssign x = true := by
  obtain ⟨d, hd, -, -⟩ := assign_eq_ok_iff.1 h
  exact canAssign_iff_assignable.2 ⟨d, hd⟩

/-- The mirror image of a binding is made, or its variable cannot be assigned and the other one can
be. -/
theorem BindMirror.canAssign_or (hxy : n.BindMirror x t y u) (h : Alike m n)
    (hx : m.canAssign x = true) :
    n.canAssign y = true ∨ n.canAssign y = false ∧ n.isOpenVar u = true := by
  rcases hxy with ⟨hvalue, -⟩ | ⟨-, hvalue⟩
  · exact .inl (h.canAssign hx hvalue)
  · obtain ⟨w, hw, -⟩ := h.exists_open (canAssign_iff.1 hx).2
    obtain rfl := hw.symm.trans hvalue
    cases hy : n.canAssign y with
    | true => exact .inl rfl
    | false => exact .inr ⟨rfl, h.canAssign hx hw⟩

/-- Equations that can be solved can be solved with their sides swapped, or else this stalls. -/
theorem unifyAll_mirror (ha : Alike m n) (hes : m.instantiateAll es = es)
    (h : m.unifyAll es = some k) (hk : k.Acyclic) :
    (∃ k', n.unifyAll (n.instantiateAll (es.map .swap)) = some k' ∧ Alike k k') ∨
      n.stalls (n.instantiateAll (es.map .swap)) = true := by
  fun_induction unifyAll m es generalizing n with
  | case1 m es hd =>
    cases h
    have hmirror := demand_mirror ha hes
    rw [hd] at hmirror
    generalize hd' : demand (n.instantiateAll (es.map .swap)) = demanded at hmirror
    cases hmirror with
    | solved => exact .inl ⟨n, by rw [unifyAll, hd'], ha⟩
  | case2 => cases h
  | case3 => cases h
  | case4 m es x t rest hd m' hassign ih =>
    have hmirror := demand_mirror ha hes
    rw [hd] at hmirror
    generalize hd' : demand (n.instantiateAll (es.map .swap)) = demanded at hmirror
    cases hmirror with
    | @bind _ y _ u _ hxy =>
      rw [unifyAll, stalls, hd']
      dsimp only
      rcases hxy.canAssign_or ha (canAssign_of_assign hassign) with hy | ⟨hy, hu⟩
      · obtain ⟨n', hn', ha'⟩ := ha.assign hassign (hk.of_extends (extends_unifyAll h)) hxy hy
        have hext : n.Extends n' := extends_assign hn'
        have hrest : n'.instantiateAll (n.instantiateAll (rest.map .swap)) =
            n'.instantiateAll ((m'.instantiateAll rest).map .swap) := by
          rw [instantiateAll_absorbed fun s => instantiate_extends hext fun z _ =>
            ha'.acyclic.2.grounded z, ← instantiateAll_swap, instantiateAll_absorbed ha'.left]
        rw [hn']
        dsimp only
        change (∃ k', n'.unifyAll (n'.instantiateAll _) = _ ∧ _) ∨ _
        rw [hrest]
        exact ih ha' (instantiateAll_absorbed (Alike.refl ha'.acyclic.1).left rest) h
      · refine .inr ?_
        split
        · rw [hy, hu]
          rfl
        · next n' hn' => cases hy.symm.trans (canAssign_of_assign hn')

/-- Nothing stalls among variables that can be assigned. -/
theorem stalls_eq_false (hes : ∀ y, Mentions es y → m.canAssign y = true) :
    m.stalls es = false := by
  fun_induction stalls m es with
  | case1 => rfl
  | case2 => rfl
  | case3 m es x t rest hd e ha =>
    rw [hes x (demand_bind hd).2.1]
    rfl
  | case4 m es x t rest hd n ha ih =>
    obtain ⟨-, -, ht, hrest⟩ := demand_bind hd
    have hopen {y : Var} (hy : Mentions es y) : m.binding? y = none := (canAssign_iff.1 (hes y hy)).2
    refine ih fun y hy => ?_
    obtain ⟨hyn, hy⟩ := mentions_instantiate ha (fun z hz => hopen (hrest z hz))
      (fun z hz => hopen (ht z hz)) hy
    have hdecl := (canAssign_iff.1 (hes y (hy.elim (hrest y) (ht y)))).1
    obtain ⟨d, hd, -, rfl⟩ := assign_eq_ok_iff.1 ha
    refine canAssign_iff.2 ⟨?_, hyn⟩
    rwa [isDeclared_congr (decl?_bind_of_decl? (assignable_iff_open.1 hd).1 _ y)]

/-- Whether unifying two terms stalls. -/
def unifyStalls (m : Context) (l r : Term) : Bool :=
  m.stalls [⟨m.instantiate l, m.instantiate r⟩]

/-- Terms that can be unified can be unified in the other order, or else this stalls. -/
theorem unify_mirror (hm : m.Acyclic) (h : m.unify l r = some n) (hn : n.Acyclic) :
    (∃ n', m.unify r l = some n' ∧ Alike n n') ∨ m.unifyStalls r l = true := by
  have hself := (Alike.refl hm).left
  have hes (l r : Term) : m.instantiateAll [⟨m.instantiate l, m.instantiate r⟩] =
      [⟨m.instantiate l, m.instantiate r⟩] := by
    simp [instantiateAll, Equation.map, hself]
  have hmirror := unifyAll_mirror (Alike.refl hm) (hes l r) h hn
  rw [show [Equation.mk (m.instantiate l) (m.instantiate r)].map Equation.swap =
    [⟨m.instantiate r, m.instantiate l⟩] from rfl, hes r l] at hmirror
  exact hmirror

end Context

/-! ## Solvers -/

namespace Solver

variable {s : Solver} {l r : Term}

theorem run_unify_some {n : Context} (h : s.context.unify l r = some n) :
    (Solver.unify l r).run s = (true, s.withContext n) := by
  simp only [StateT.run, Solver.unify, h]

theorem exists_of_run_unify (h : ((Solver.unify l r).run s).1 = true) :
    ∃ n, s.context.unify l r = some n := by
  cases hu : s.context.unify l r with
  | some n => exact ⟨n, rfl⟩
  | none =>
    simp only [StateT.run, Solver.unify, hu] at h
    cases h

theorem run_unify_stalled (h : s.context.unifyStalls l r = true) :
    ((Solver.unify l r).run s).1 = false := by
  refine (Bool.not_eq_true _).mp fun hfound => ?_
  obtain ⟨n, hn⟩ := exists_of_run_unify hfound
  exact nomatch hn.symm.trans (Context.unifyAll_of_stalls h)

theorem run_unify_mirror (hs : s.context.Acyclic)
    (hl : ((Solver.unify l r).run s).2.context.Acyclic)
    (hfound : ((Solver.unify l r).run s).1 = true) :
    ((Solver.unify r l).run s).1 = true ∧ Context.Alike ((Solver.unify l r).run s).2.context
      ((Solver.unify r l).run s).2.context ∨ s.context.unifyStalls r l = true := by
  obtain ⟨n, hn⟩ := exists_of_run_unify hfound
  rw [run_unify_some hn] at hl ⊢
  refine (Context.unify_mirror hs hn hl).imp_left fun ⟨n', hn', halike⟩ => ?_
  rw [run_unify_some hn']
  exact ⟨rfl, halike⟩

/-- Let both orders of two terms be unified from a context without cycles, and leave none.  The
results agree, unless one order succeeds and the other one stalls.  They agree in particular if all
variables that instantiation leaves in the terms can be assigned.  If both orders succeed, the two
contexts give all terms the same values, up to the names of open variables. -/
theorem unify_swap (s : Solver) (l r : Term) (hs : s.context.Acyclic)
    (hl : ((Solver.unify l r).run s).2.context.Acyclic)
    (hr : ((Solver.unify r l).run s).2.context.Acyclic) :
    (((Solver.unify l r).run s).1 = ((Solver.unify r l).run s).1 ↔
      ¬ (((Solver.unify l r).run s).1 = true ∧ s.context.unifyStalls r l = true) ∧
      ¬ (((Solver.unify r l).run s).1 = true ∧ s.context.unifyStalls l r = true)) ∧
    ((∀ x, (s.context.instantiate l).occurs x = true ∨ (s.context.instantiate r).occurs x = true →
        s.context.canAssign x = true) →
      ((Solver.unify l r).run s).1 = ((Solver.unify r l).run s).1) ∧
    (((Solver.unify l r).run s).1 = true → ((Solver.unify r l).run s).1 = true →
      Context.Alike ((Solver.unify l r).run s).2.context ((Solver.unify r l).run s).2.context) := by
  have hagree : ((Solver.unify l r).run s).1 = ((Solver.unify r l).run s).1 ↔
      ¬ (((Solver.unify l r).run s).1 = true ∧ s.context.unifyStalls r l = true) ∧
      ¬ (((Solver.unify r l).run s).1 = true ∧ s.context.unifyStalls l r = true) := by
    constructor
    · intro heq
      refine ⟨fun ⟨hfound, hstall⟩ => ?_, fun ⟨hfound, hstall⟩ => ?_⟩
      · exact nomatch (heq ▸ hfound).symm.trans (run_unify_stalled hstall)
      · exact nomatch (heq ▸ hfound).symm.trans (run_unify_stalled hstall)
    · rintro ⟨hleft, hright⟩
      rw [Bool.eq_iff_iff]
      refine ⟨fun hfound => ?_, fun hfound => ?_⟩
      · exact ((run_unify_mirror hs hl hfound).resolve_right fun h => hleft ⟨hfound, h⟩).1
      · exact ((run_unify_mirror hs hr hfound).resolve_right fun h => hright ⟨hfound, h⟩).1
  refine ⟨hagree, fun hopen => hagree.2 ⟨fun h => ?_, fun h => ?_⟩, fun hfound hfound' => ?_⟩
  · refine nomatch h.2.symm.trans (Context.stalls_eq_false ?_)
    rintro y ⟨e, he, hy⟩
    obtain rfl := List.mem_singleton.1 he
    exact hopen y hy.symm
  · refine nomatch h.2.symm.trans (Context.stalls_eq_false ?_)
    rintro y ⟨e, he, hy⟩
    obtain rfl := List.mem_singleton.1 he
    exact hopen y hy
  · refine ((run_unify_mirror hs hl hfound).resolve_right fun h => ?_).2
    exact nomatch hfound'.symm.trans (run_unify_stalled h)

/-- The first of five variables waits for the second one. -/
def awaited : List Context.Call := [
  .declare ⟨1⟩ ⟨.const "T", [], none⟩,
  .declare ⟨2⟩ ⟨.const "T", [], none⟩,
  .declare ⟨3⟩ ⟨.const "T", [], none⟩,
  .declare ⟨4⟩ ⟨.const "T", [], none⟩,
  .declare ⟨5⟩ ⟨.const "T", [], none⟩,
  .assignDelayed ⟨1⟩ ⟨2⟩]

/-- The state after some calls that start from the empty context. -/
def after (calls : List Context.Call) : Solver :=
  ⟨⟨Context.Call.performAll .empty calls, .empty⟩, 5⟩

theorem acyclic_after {calls : List Context.Call}
    (h : Context.Call.areChecked .empty calls = true) : (after calls).context.Acyclic :=
  Context.Call.acyclic_of_checked h

/-- The second variable holds `g(?m3)`, so that the first pair of arguments gives the first variable
its value.  In the last pair each order binds the open variable on its left. -/
theorem unify_swap_awaited :
    let s := after (awaited ++ [.assign ⟨2⟩ (.app "g" [.var ⟨3⟩])])
    let l := .app "h" [.var ⟨3⟩, .var ⟨1⟩, .var ⟨4⟩]
    let r := .app "h" [.const "b", .app "g" [.const "b"], .var ⟨5⟩]
    ((Solver.unify l r).run s).1 = ((Solver.unify r l).run s).1 ∧
      ((Solver.unify l r).run s).2.context.binding? ⟨4⟩ = some (.value (.var ⟨5⟩)) ∧
      ((Solver.unify r l).run s).2.context.binding? ⟨5⟩ = some (.value (.var ⟨4⟩)) ∧
      Context.Alike ((Solver.unify l r).run s).2.context ((Solver.unify r l).run s).2.context := by
  intro s l r
  have hl : ((Solver.unify l r).run s).2.context =
      (after (awaited ++ [.assign ⟨2⟩ (.app "g" [.var ⟨3⟩]), .assign ⟨3⟩ (.const "b"),
        .assign ⟨4⟩ (.var ⟨5⟩)])).context := by decide +kernel
  have hr : ((Solver.unify r l).run s).2.context =
      (after (awaited ++ [.assign ⟨2⟩ (.app "g" [.var ⟨3⟩]), .assign ⟨3⟩ (.const "b"),
        .assign ⟨5⟩ (.var ⟨4⟩)])).context := by decide +kernel
  obtain ⟨hagree, -, halike⟩ := unify_swap s l r (acyclic_after (by decide +kernel))
    (hl ▸ acyclic_after (by decide +kernel)) (hr ▸ acyclic_after (by decide +kernel))
  exact ⟨hagree.2 (by decide +kernel), by decide +kernel, by decide +kernel,
    halike (by decide +kernel) (by decide +kernel)⟩

/-- A waiting variable on the left is not bound, although the open one on the right could be. -/
theorem unify_one_way :
    (after awaited).context.isDeclared ⟨1⟩ = true ∧ (after awaited).context.isDeclared ⟨3⟩ = true ∧
    (after awaited).context.Acyclic ∧
    ((Solver.unify (.var ⟨3⟩) (.var ⟨1⟩)).run (after awaited)).1 = true ∧
    ((Solver.unify (.var ⟨3⟩) (.var ⟨1⟩)).run (after awaited)).2.context.Acyclic ∧
    ((Solver.unify (.var ⟨1⟩) (.var ⟨3⟩)).run (after awaited)).1 = false ∧
    ((Solver.unify (.var ⟨1⟩) (.var ⟨3⟩)).run (after awaited)).2.context.Acyclic := by
  have hbound : ((Solver.unify (.var ⟨3⟩) (.var ⟨1⟩)).run (after awaited)).2.context =
      (after (awaited ++ [.assign ⟨3⟩ (.var ⟨1⟩)])).context := by decide +kernel
  have hkept : ((Solver.unify (.var ⟨1⟩) (.var ⟨3⟩)).run (after awaited)).2.context =
      (after awaited).context := by decide +kernel
  have hawaited : (after awaited).context.Acyclic := acyclic_after (by decide +kernel)
  exact ⟨rfl, rfl, hawaited, by decide +kernel, hbound ▸ acyclic_after (by decide +kernel),
    by decide +kernel, hkept ▸ hawaited⟩

end Solver

end ProofSearch
