import Parley.Proofs.Declarations

/-!
What an evaluation can reach.

An expression looks up its free names, and the globals that it finds there look up theirs, in the
environment at hand. So two environments that agree on a set of names which is closed under this
are the same to it, whatever they hold besides. A global is not only found under its own name: it
may be held in a pair, or by a function, and be bound to another name later. What such globals see
can be reached too, and it is not enough to follow the names that are bound to globals.
-/

namespace Parley

/-- A global is held in a value, where it can be got out of it: as the value itself, in a pair, or
in what a function has captured. A global that is bound in the environment of a function is called
there, and stays there. -/
inductive Value.Carries (g : Global) : Value → Prop
  | self : Carries g (.global g)
  | first {a b : Value} (h : Carries g a) : Carries g (.pair a b)
  | second {a b : Value} (h : Carries g b) : Carries g (.pair a b)
  | captured {param : Param} {more : List Param} {body : Expr} {env : Env} {x : Atom} {v : Value}
      (hx : Table.find? env x = some v) (hv : ∀ g', v ≠ .global g') (h : Carries g v) :
      Carries g (.function param more body env)

variable {S : Set Atom} {env env' : Env}

lemma Likeness.Bound.same (b : Option Value) : (Likeness.same S).Bound b b := by
  cases b with
  | none => exact .none
  | some v =>
    cases v with
    | global g => exact .global rfl rfl rfl
    | _ => exact .value (by simp) (by simp)

/-- A value is like itself, if the globals in it see nothing beyond the given names. -/
theorem Value.like_self (v : Value) (hv : ∀ g, v.Carries g → ∀ y, g.Free y → y ∈ S) :
    v.Like (.same S) v := by
  match v with
  | .unit => exact .unit
  | .label x => exact .label x
  | .int i => exact .int i
  | .sender on => exact .sender on
  | .identity => exact .identity
  | .channel e => exact .channel e
  | .global g => exact .global rfl rfl rfl (hv g .self)
  | .pair a b =>
    exact .pair (a.like_self fun g hg => hv g (.first hg))
      (b.like_self fun g hg => hv g (.second hg))
  | .function param more body env =>
    -- the environment is the same all through, so that all of it is to agree
    refine .function Set.univ (Set.subset_univ _) rfl (fun _ _ _ => trivial)
      (fun _ _ _ _ _ _ => trivial) (fun x _ => .same _) fun x w w' _ hw hw' hne => ?_
    obtain rfl : w = w' := Option.some.inj (hw.symm.trans hw')
    have hlt : sizeOf w < sizeOf env :=
      lt_trans (by simp) (List.sizeOf_lt_of_mem (Table.mem_of_find? hw))
    exact w.like_self fun g hg => hv g (.captured hw hne hg)
termination_by sizeOf v

/-- Environments that agree on the names that can be reached are alike there. -/
lemma Env.like_of_agree
    (hglobals : ∀ x ∈ S, ∀ v, Table.find? env x = some v → ∀ g, v.Carries g → ∀ y, g.Free y → y ∈ S)
    (hsame : ∀ x ∈ S, Table.find? env' x = Table.find? env x) :
    Env.Like (.same S) S env env' where
  loose := subset_rfl
  closed x g hx hg := hglobals x hx _ hg g .self
  bound x hx := hsame x hx ▸ .same _
  values x v v' hx hv hv' _ := by
    rw [hsame x hx, hv] at hv'
    cases hv'
    exact v.like_self (hglobals x hx v hv)

/-- Machines with nothing in them but the same queues, where nobody waits. -/
lemma Machine.Tied.like_queues (policy : Policy) {queues : Table QueueId (Queue Value Stack)}
    (hqueues : ∀ c ∈ queues, c.2.waiting = [] ∧
      ∀ v ∈ c.2.buffer, ∀ g, v.Carries g → ∀ y, g.Free y → y ∈ S) (allocated : Nat) :
    Machine.Tied (Likeness.same S).pairing.tie { policy, queues, allocated }
      { policy, queues, allocated } where
  policy := rfl
  jobs := .nil
  parked := .nil
  steps := rfl
  queues := List.forall₂_same.mpr fun c hc => by
    obtain ⟨hwaiting, hbuffer⟩ := hqueues c hc
    refine ⟨rfl, List.forall₂_same.mpr fun v hv => v.like_self (hbuffer v hv), ?_⟩
    rw [hwaiting]
    exact .nil
  allocated := rfl
  tasks := ⟨rfl, .nil, rfl, rfl, rfl⟩
  awaiting := ⟨rfl, rfl⟩
  log := .nil
  events := .nil

/-- **Evaluation depends only on what it can reach.** Let a set of names hold the free names of an
expression, and the free names of every global that is held in a value bound to one of them, or
in a value that waits in a queue. Then the expression does the same in all environments that give
the same values to these names, whatever the policy is and whatever the queues hold: they give the
same account after every step, also if they never end, with the same fuel both evaluations come to
an end or neither does, and they report at the same moment. -/
theorem eval_eq_of_agree {e : Expr} (hfree : ∀ x, e.Free x → x ∈ S)
    (hglobals : ∀ x ∈ S, ∀ v, Table.find? env x = some v → ∀ g, v.Carries g → ∀ y, g.Free y → y ∈ S)
    (hsame : ∀ x ∈ S, Table.find? env' x = Table.find? env x) (policy : Policy)
    {queues : Table QueueId (Queue Value Stack)} (hqueues : ∀ c ∈ queues, c.2.waiting = [] ∧
      ∀ v ∈ c.2.buffer, ∀ g, v.Carries g → ∀ y, g.Free y → y ∈ S) (allocated : Nat) :
    let start (env : Env) : Machine :=
      Machine.eval { policy, queues, allocated } e env [.report 0]
    (∀ n, (Machine.step^[n] (start env')).glimpse = (Machine.step^[n] (start env)).glimpse) ∧
    ∀ fuel, (Finished.ofMachine fuel 0 (start env')).map (fun f => (f.report, f.countsAtEnd)) =
      (Finished.ofMachine fuel 0 (start env)).map fun f => (f.report, f.countsAtEnd) := by
  have hclosure : (Likeness.same S).Closure [] e e env env' :=
    ⟨S, rfl, fun x hx _ => hfree x hx, Env.like_of_agree hglobals hsame⟩
  have hstack :
      (Likeness.same S).pairing.stack [.eval e env, .report 0] [.eval e env', .report 0] :=
    .cons (.eval hclosure) (.cons (.bare trivial) .nil)
  have hstart := (Machine.Tied.like_queues policy hqueues allocated).check
    Likeness.lawful_pairing.tie hstack
  exact hstart.same_account Likeness.lawful_pairing Likeness.lawful_same.steady
    (Likeness.faithful_pairing fun _ _ h => h.symm) (.same _)

/-! ### A global in a pair -/

/-- A name is bound to a pair, and the first of it is a global that looks up another name. -/
def Env.paired (i : Int) : Env :=
  [(.text "x", .pair (.global ⟨.text "g", .ok [], .var (.text "z")⟩) .unit), (.text "z", .int i)]

def Expr.unpack : Expr :=
  .letIn (.text "y") (.fst (.var (.text "x"))) (.var (.text "y"))

lemma Expr.free_unpack {x : Atom} (h : unpack.Free x) : x = .text "x" := by
  have hvar : ∀ {y : Atom}, (Expr.var y).Free x → x = y := by
    intro y h
    cases h with
    | var => rfl
    | part ha => cases ha
  cases h with
  | part ha hx h =>
    simp only [unpack, scopes, List.mem_cons, Prod.mk.injEq, List.not_mem_nil, or_false] at ha
    rcases ha with ⟨rfl, rfl⟩ | ⟨rfl, rfl⟩
    · cases h with
      | part ha _ h =>
        obtain ⟨rfl, rfl⟩ : _ = [] ∧ _ = Expr.var (.text "x") := by simpa [scopes] using ha
        exact hvar h
    · exact absurd (List.mem_singleton.mpr (hvar h)) hx

/-- It does not suffice to follow the names that are bound to globals: here no name that can be
reached in this way is, the environments agree on all of them, and yet the evaluations end with
different values. -/
theorem eval_unpack_ne :
    (∀ x, Expr.unpack.Free x → x ∈ ({.text "x"} : Set Atom)) ∧
    (∀ x ∈ ({.text "x"} : Set Atom), ∀ g, Table.find? (Env.paired 1) x ≠ some (.global g)) ∧
    (∀ x ∈ ({.text "x"} : Set Atom), Table.find? (Env.paired 2) x = Table.find? (Env.paired 1) x) ∧
    ∀ i : Int, i = 1 ∨ i = 2 →
      (Finished.ofMachine 20 0 (Machine.eval {} Expr.unpack (Env.paired i) [.report 0])).map
        (·.report.outcome) = some (.ok (toString i)) := by
  refine ⟨fun x hx => Expr.free_unpack hx, ?_, ?_, ?_⟩
  · rintro x rfl g h
    cases h
  · rintro x rfl
    rfl
  · rintro i (rfl | rfl) <;> rfl

/-- With what the global looks up, the environments may differ in any other name. -/
theorem eval_unpack_of_agree :
    (Machine.step^[5] (Machine.eval {} Expr.unpack ((.text "y", .int 7) :: Env.paired 1)
        [.report 0])).glimpse =
      (Machine.step^[5] (Machine.eval {} Expr.unpack (Env.paired 1) [.report 0])).glimpse ∧
    (Finished.ofMachine 20 0
      (Machine.eval {} Expr.unpack (Env.paired 1) [.report 0])).isSome = true ∧
    (Finished.ofMachine 20 0 (Machine.eval {} Expr.unpack
        ((.text "y", .int 7) :: Env.paired 1) [.report 0])).map
        (fun f => (f.report, f.countsAtEnd)) =
      (Finished.ofMachine 20 0 (Machine.eval {} Expr.unpack (Env.paired 1) [.report 0])).map
        fun f => (f.report, f.countsAtEnd) := by
  have hcarries : ∀ x v, Table.find? (Env.paired 1) x = some v → ∀ g, v.Carries g →
      ∀ y, g.Free y → y = .text "z" := by
    intro x v hv g hg y hy
    have hmem := Table.mem_of_find? hv
    simp only [Env.paired, List.mem_cons, Prod.mk.injEq, List.not_mem_nil, or_false] at hmem
    rcases hmem with ⟨-, rfl⟩ | ⟨-, rfl⟩
    · cases hg with
      | second h => cases h
      | first h =>
        cases h
        obtain ⟨-, -, -, h⟩ := hy
        cases h with
        | var => rfl
        | part ha => cases ha
    · cases hg
  have hsame : ∀ x ∈ ({.text "x", .text "z"} : Set Atom),
      Table.find? ((.text "y", .int 7) :: Env.paired 1) x = Table.find? (Env.paired 1) x := by
    rintro x (rfl | rfl) <;> rfl
  obtain ⟨hsteps, hruns⟩ := eval_eq_of_agree (fun x hx => .inl (Expr.free_unpack hx))
    (fun x _ v hv g hg y hy => .inr (hcarries x v hv g hg y hy)) hsame {}
    (fun c hc => absurd hc List.not_mem_nil) 0
  exact ⟨hsteps 5, rfl, hruns 20⟩

end Parley
