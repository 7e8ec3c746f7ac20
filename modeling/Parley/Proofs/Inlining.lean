import Parley.Proofs.Acceptance
import Parley.Proofs.Isolation
import Parley.Proofs.Readings
import Parley.Proofs.Refinement

/-!
A reference to a global without parameters is as good as its body.

What two programs have in common that differ in some places only is a program with gaps in those
places. Filled with references or with the body that they refer to, it is read in two forms, and
left open it is read in a third one, which counts how often a gap is come to. The three keep
together: where the reference is, one of them takes a layer more and counts one evaluation more.
-/

namespace Parley

/-! ### Programs with gaps -/

def Expr.isGap : Expr → Bool
  | .missing .absent => true
  | _ => false

mutual

/-- The expression with something in every gap. -/
def Expr.fill (f : Expr) : Expr → Expr
  | .missing .absent => f
  | .missing .null => .missing .null
  | .arith op a b => .arith op (Expr.fill f a) (Expr.fill f b)
  | .negate a => .negate (Expr.fill f a)
  | .succ a => .succ (Expr.fill f a)
  | .letIn x a b => .letIn x (Expr.fill f a) (Expr.fill f b)
  | .letPair x y a b => .letPair x y (Expr.fill f a) (Expr.fill f b)
  | .pair x a b => .pair x (Expr.fill f a) (Expr.fill f b)
  | .fst a => .fst (Expr.fill f a)
  | .snd a => .snd (Expr.fill f a)
  | .lambda x a => .lambda x (Expr.fill f a)
  | .app a b => .app (Expr.fill f a) (Expr.fill f b)
  | .fork a => .fork (Expr.fill f a)
  | .send a => .send (Expr.fill f a)
  | .recv a => .recv (Expr.fill f a)
  | .caseOf a bs rest => .caseOf (Expr.fill f a) (Expr.fillBranches f bs) rest
  | .natRec a b x y c => .natRec (Expr.fill f a) (Expr.fill f b) x y (Expr.fill f c)
  | .unit => .unit
  | .var x => .var x
  | .label x => .label x
  | .int n => .int n
  | .nat n => .nat n
  | .channel => .channel
  | .unknown kind shown => .unknown kind shown

def Expr.fillBranches (f : Expr) : List (Atom × Expr) → List (Atom × Expr)
  | [] => []
  | (x, b) :: rest => (x, Expr.fill f b) :: Expr.fillBranches f rest

end

def Translation.fill (f : Expr) : Translation := ⟨Expr.fill f, id⟩

def Program.fill (f : Expr) (p : Program) : Program := p.under (.fill f)

namespace Expr

variable {f f' e : Expr} {P : Expr → Prop}

lemma eq_of_isGap (he : e.isGap = true) : e = .missing .absent := by
  cases e with
  | missing g =>
    cases g with
    | absent => rfl
    | null => cases he
  | _ => cases he

lemma fillBranches_eq_map (f : Expr) (bs : List (Atom × Expr)) :
    fillBranches f bs = bs.map fun b => (b.1, fill f b.2) := by
  induction bs with
  | nil => rfl
  | cons b rest ih => rw [fillBranches, ih, List.map_cons]

lemma fill_node (f : Expr) (he : e.isGap = false) : fill f e = e.mapParts (fill f) := by
  cases e with
  | missing g =>
    cases g with
    | absent => cases he
    | null => rfl
  | caseOf a bs rest => rw [fill, fillBranches_eq_map, mapParts]
  | _ => rfl

lemma mapParts_eq_self {φ : Expr → Expr} (h : ∀ a ∈ e.parts, φ a = a) : e.mapParts φ = e := by
  cases e with
  | caseOf a bs rest =>
    simp only [parts, List.forall_mem_cons, List.forall_mem_map] at h
    have hbs : bs.map (fun b => (b.1, φ b.2)) = bs.map id :=
      List.map_congr_left fun b hb => Prod.ext rfl (h.2 b hb)
    rw [mapParts, h.1, hbs, List.map_id]
  | _ => simp_all [mapParts, parts]

/-- Nothing changes where every gap is filled with itself. -/
lemma fill_eq_self (h : e.Every fun a => a.isGap = true → f = a) : fill f e = e := by
  induction h with
  | @mk e here _ ih =>
    cases he : e.isGap with
    | true =>
      obtain rfl := eq_of_isGap he
      exact here he
    | false => rw [fill_node f he, mapParts_eq_self ih]

lemma fill_of_gapless (h : e.Every (·.isGap = false)) (f : Expr) : fill f e = e :=
  fill_eq_self (h.imp fun _ hfalse htrue => absurd (hfalse.symm.trans htrue) (by decide))

lemma fill_missing (e : Expr) : fill (.missing .absent) e = e :=
  fill_eq_self (.of_forall (fun _ h => (eq_of_isGap h).symm) e)

/-- What holds of all nodes with one filling holds with another, if it holds of that. -/
lemma Every.refill (hnode : ∀ e φ, P (e.mapParts φ) ↔ P e) (h : (fill f e).Every P)
    (hf : f'.Every P) : (fill f' e).Every P := by
  induction e using induction_on_parts with
  | h e ih =>
    cases he : e.isGap with
    | true =>
      obtain rfl := eq_of_isGap he
      exact hf
    | false =>
      rw [fill_node _ he] at h ⊢
      refine ⟨(hnode e _).mpr ((hnode e _).mp h.here), fun b hb => ?_⟩
      rw [parts_mapParts] at hb
      obtain ⟨a, ha, rfl⟩ := List.mem_map.mp hb
      refine ih a ha (h.part ?_)
      rw [parts_mapParts]
      exact List.mem_map_of_mem ha

lemma proper_mapParts (e : Expr) (φ : Expr → Expr) : (e.mapParts φ).Proper ↔ e.Proper := by
  refine ⟨fun h => ?_, Proper.mapParts⟩
  cases e with
  | caseOf a bs rest => exact ⟨h.1, fun b hb => h.2 (b.1, φ b.2) (List.mem_map.mpr ⟨b, hb, rfl⟩)⟩
  | _ => exact h

lemma isFork_mapParts (e : Expr) (φ : Expr → Expr) : (e.mapParts φ).isFork = e.isFork := by
  cases e <;> rfl

lemma scopes_mapParts (e : Expr) (φ : Expr → Expr) :
    (e.mapParts φ).scopes = e.scopes.map fun s => (s.1, φ s.2) := by
  cases e with
  | caseOf a bs rest => simp [mapParts, scopes]
  | _ => rfl

end Expr

lemma Global.under_fill_missing (g : Global) : g.under (.fill (.missing .absent)) = g :=
  congrArg (fun b => { g with body := b }) g.body.fill_missing

namespace Direct

/-! ### Three readings -/

/-- In every gap this is evaluated, and nothing but gaps is counted. -/
def Reading.marked (c : Expr) : Reading where
  place e := if e.isGap then c else e
  weight e := if e.isGap then 1 else 0

def Result.fill (f : Expr) (r : Result Value) : Result Value :=
  r.under (.fill f) (Value.under (.fill f))

inductive Version
  /-- With references in the gaps. -/
  | referring
  /-- With the body in the gaps. -/
  | inlined
  /-- With its gaps. -/
  | gapped

namespace Version

/-- What stands in the gaps, for the body of a global of this name. -/
def filling (x : Atom) (body : Expr) : Version → Expr
  | referring => .var x
  | inlined => body
  | gapped => .missing .absent

def reading (c : Expr) : Version → Reading
  | referring | inlined => .plain
  | gapped => .marked c

def layers (n k m : Nat) : Version → Nat
  | referring => n
  | inlined => k
  | gapped => m

def nodeWeight : Version → Nat
  | referring | inlined => 1
  | gapped => 0

/-- What a gap counts for, together with what is evaluated in its place. -/
def gapWeight : Version → Nat
  | referring => 2
  | inlined | gapped => 1

end Version

/-- The versions of a program with gaps. What is counted with references is what is counted with
the body, and the gaps in addition. -/
def Ensemble.inlining (x : Atom) (g : Global) (body : Expr) (leader : Version) :
    Ensemble Version where
  form i := .fill (i.filling x body)
  queue _ _ := rfl
  literal _ _ := rfl
  counts := {
    carrier := { d | d .referring = d .inlined + d .gapped }
    zero_mem' := rfl
    add_mem' := fun {d d'} (hd : _ = _) (hd' : _ = _) => by
      simp only [Set.mem_ofPred_eq, Pi.add_apply, hd, hd']
      omega }
  leader
  name := x
  global := g

section Inlining

variable {x : Atom} {g : Global} {body c : Expr} {leader : Version}

/-- A name refers to this body, where a global has gaps for references to itself. -/
structure Refers (x : Atom) (g : Global) (body : Expr) : Prop where
  params : g.params = .ok []
  filled : Expr.fill (.var x) g.body = body
  gapless : body.Every (·.isGap = false)
  spares : body.Spares x

/-- What may be read in a gap: the body, or a reference if the global itself has no gaps. -/
def Stands (x : Atom) (g : Global) (body c : Expr) : Prop := c = body ∨ c = .var x ∧ g.body = body

lemma tally_tally {α : Type} (m n : Nat) (k : Comp α) :
    (tally m >>= fun _ => tally n >>= fun _ => k) = tally (m + n) >>= fun _ => k := by
  funext s
  simp only [Bind.bind, tally, add_assoc]

/-- An expression is evaluated by a layer of another one, so many layers later, and for so much
altogether. -/
structure Reading.Reaches (R : Reading) (e : Expr) (env : Env) (late w : Nat) (b : Expr) :
    Prop where
  short : ∀ n ≤ late, ∀ s, R.eval n e env s = none
  eval : ∀ n, R.eval (n + late + 1) e env = tally w >>= fun _ => layer (R.eval n) b env

lemma Reading.reaches_place (R : Reading) (e : Expr) (env : Env) :
    R.Reaches e env 0 (R.weight e) (R.place e) where
  short n hn s := by
    rw [Nat.le_zero.mp hn]
    rfl
  eval _ := rfl

/-- Through a reference the body is reached one layer later. -/
lemma Reading.reaches_body {R : Reading} {env : Env} (hx : Table.find? env x = some (.global g))
    (hg : g.params = .ok []) {e : Expr} (he : R.place e = .var x) :
    R.Reaches e env 1 (R.weight e + R.weight g.body) (R.place g.body) := by
  have hbody : ∀ n, R.eval (n + 1) e env = tally (R.weight e) >>= fun _ => R.eval n g.body env := by
    intro n
    simp only [eval, he, layer, hx, resolve, hg]
  refine ⟨fun n hn s => ?_, fun n => ?_⟩
  · rcases Nat.le_one_iff_eq_zero_or_eq_one.mp hn with rfl | rfl
    · rfl
    · rw [hbody 0]
      rfl
  · rw [hbody]
    exact tally_tally ..

lemma Reading.marked_of_not_isGap {e : Expr} (he : e.isGap = false) :
    (marked c).weight e = 0 ∧ (marked c).place e = e := by
  simp [marked, he]

/-- In a gap every version reaches the body, at once or one layer later. -/
lemma reaches_of_gap (h : Refers x g body) (hc : Stands x g body c) {env : Env}
    (henv : Env.Keeps x g env) (i : Version) : ∃ late ≤ 1, (i.reading c).Reaches
      (i.filling x body) (Env.under (.fill (i.filling x body)) env) late i.gapWeight body := by
  have hfind : ∀ R, Table.find? (Env.under R env) x = some (.global (g.under R)) := fun R => by
    rw [Env.find?_under, henv.here]
    rfl
  cases i with
  | referring =>
    have hreaches := Reading.reaches_body (R := .plain) (e := .var x)
      (hfind (.fill (.var x))) h.params rfl
    exact ⟨1, le_rfl, h.filled ▸ hreaches⟩
  | inlined => exact ⟨0, Nat.zero_le _, Reading.reaches_place ..⟩
  | gapped =>
    rcases hc with rfl | ⟨hc, hbody⟩
    · exact ⟨0, Nat.zero_le _, Reading.reaches_place ..⟩
    · have hreaches := Reading.reaches_body (R := .marked c) (e := .missing .absent)
        (hfind (.fill (.missing .absent))) h.params hc
      rw [g.under_fill_missing, hbody, (Reading.marked_of_not_isGap h.gapless.here).1,
        (Reading.marked_of_not_isGap h.gapless.here).2] at hreaches
      exact ⟨1, le_rfl, hreaches⟩

lemma reaches_of_not_isGap (i : Version) {e : Expr} (he : e.isGap = false) (env : Env) :
    (i.reading c).Reaches (Expr.fill (i.filling x body) e) env 0 i.nodeWeight
      (Expr.fill (i.filling x body) e) := by
  cases i with
  | gapped =>
    have hreaches := (Reading.marked c).reaches_place e env
    rw [(Reading.marked_of_not_isGap he).1, (Reading.marked_of_not_isGap he).2] at hreaches
    simp only [Version.filling, e.fill_missing]
    exact hreaches
  | _ => exact Reading.reaches_place ..

/-- Wherever they are, the versions reach what is a layer in all of them. -/
lemma exists_reaches (h : Refers x g body) (hc : Stands x g body c) {e : Expr} (he : e.Spares x)
    {env : Env} (henv : Env.Keeps x g env) : ∃ (late w : Version → Nat) (b : Expr),
      (∀ i, late i ≤ 1) ∧ w .referring = w .inlined + w .gapped ∧ b.Spares x ∧
      ∀ i : Version, (i.reading c).Reaches (Expr.fill (i.filling x body) e)
        (Env.under (.fill (i.filling x body)) env) (late i) (w i)
        (b.mapParts (Expr.fill (i.filling x body))) := by
  cases hgap : e.isGap with
  | false =>
    refine ⟨fun _ => 0, Version.nodeWeight, e, fun _ => Nat.zero_le _, rfl, he, fun i => ?_⟩
    rw [← Expr.fill_node _ hgap]
    exact reaches_of_not_isGap i hgap _
  | true =>
    obtain rfl := Expr.eq_of_isGap hgap
    choose late hlate hreaches using reaches_of_gap h hc henv
    refine ⟨late, Version.gapWeight, body, hlate, rfl, h.spares, fun i => ?_⟩
    rw [← Expr.fill_node _ h.gapless.here, Expr.fill_of_gapless h.gapless]
    exact hreaches i

/-- **The versions of a program with gaps keep together**, whichever leads, if the others have
twice as many layers. -/
theorem evaluates_inlining (h : Refers x g body) (hc : Stands x g body c) {fuel : Version → Nat}
    (hfuel : ∀ i, i = leader ∨ 2 * fuel leader ≤ fuel i) :
    (Ensemble.inlining x g body leader).Evaluates fun i => (i.reading c).eval (fuel i) := by
  induction hn : fuel leader using Nat.strong_induction_on generalizing fuel with
  | _ n ih =>
    intro e env he henv
    obtain ⟨late, w, b, hlate, hw, hb, hreaches⟩ := exists_reaches h hc he henv
    by_cases hshort : fuel leader ≤ late leader
    · intro s k _ hlead
      exact absurd ((hreaches leader).short _ hshort _) hlead
    · -- the layers that are left when everybody has come to this one
      obtain ⟨left, hleft⟩ : ∃ left : Version → Nat, ∀ i, fuel i = left i + late i + 1 := by
        refine ⟨fun i => fuel i - (late i + 1), fun i => ?_⟩
        have hi := hlate i
        have hlong : late i + 1 ≤ fuel i := by rcases hfuel i with rfl | hf <;> omega
        exact (Nat.sub_add_cancel hlong).symm
      have hahead : ∀ i, i = leader ∨ 2 * left leader ≤ left i := by
        intro i
        have hi := hleft i
        have hlatei := hlate i
        have hleader := hleft leader
        exact (hfuel i).imp_right fun hf => by omega
      have hev := ih (left leader) (by have := hleft leader; omega) hahead rfl
      have hagree : (Ensemble.inlining x g body leader).Agree fun i =>
          tally (w i) >>= fun _ => layer ((i.reading c).eval (left i))
            (b.mapParts (Expr.fill (i.filling x body)))
            (Env.under (.fill (i.filling x body)) env) :=
        (Ensemble.together_tally hw).bind fun _ _ => hev.layer henv hb
      simp only [← (hreaches _).eval, ← hleft] at hagree
      exact hagree

/-- **The versions of a program come to one result**, once one of them comes to a result. -/
theorem run_versions (h : Refers x g body) (hc : Stands x g body c) {D : Program}
    (hD : Env.Keeps x g D.globals) (leader : Version) (fuel : Version → Nat)
    (hfuel : ∀ i, i = leader ∨ 2 * fuel leader ≤ fuel i)
    (hlead : (leader.reading c).run (fuel leader) (D.fill (leader.filling x body)) ≠ none) :
    ∃ (r : Result Value) (t : Store) (d : Version → Nat),
      d .referring = d .inlined + d .gapped ∧
      ∀ i, (i.reading c).run (fuel i) (D.fill (i.filling x body)) =
        some (r.fill (i.filling x body), t.under (.fill (i.filling x body)) (d i)) :=
  (evaluates_inlining h hc hfuel).run hD hlead

end Inlining

end Direct

/-! ### What shows -/

section Showing

variable {R : Translation} (hR : ∀ n, R.queue n = n)

include hR

lemma Value.render_under (v : Value) : (v.under R).render = v.render := by
  fun_induction Value.render v with
  | case4 a b iha ihb => rw [under, render, iha, ihb]
  | case8 e => rw [under, e.under_eq_self hR, render]
  | _ => rfl

lemma Outcome.shown_under (o : Outcome) : (Outcome.under R o).shown = o.shown := by
  cases o with
  | ok v => exact congrArg Except.ok (v.render_under hR)
  | error f =>
    cases f with
    | typeMismatch expected got context =>
      exact congrArg (fun m => Except.error (_, m))
        (Fault.message_typeMismatch got.kind_under (got.render_under hR) expected context)
    | _ => rfl

end Showing

lemma Direct.Result.shown_fill (f : Expr) (r : Direct.Result Value) :
    (r.fill f).outcome?.map Outcome.shown = r.outcome?.map Outcome.shown := by
  cases r with
  | value v => exact congrArg some (Outcome.shown_under (fun _ => rfl) (.ok v))
  | fault e => exact congrArg some (Outcome.shown_under (fun _ => rfl) (.error e))
  | blocked on => rfl

lemma Direct.Store.render_under {R : Translation} (hR : ∀ n, R.queue n = n) (t : Direct.Store)
    (n : Nat) (q : QueueId) :
    ((t.under R n).contents q).map Value.render = (t.contents q).map Value.render := by
  simp only [Direct.Store.under, List.map_map]
  exact List.map_congr_left fun v _ => v.render_under hR

/-! ### Declarations -/

lemma Expr.Spares.missing {x : Atom} {g : Gap} : (Expr.missing g).Spares x :=
  ⟨fun _ h => absurd h List.not_mem_nil, fun _ h => absurd h List.not_mem_nil⟩

lemma Expr.Proper.isGap {e : Expr} (h : e.Proper) : e.isGap = false := by
  cases e with
  | missing => exact h.elim
  | _ => rfl

namespace Global

variable {f f' : Expr} {x : Atom} {g : Global}

lemma Spares.refill (h : (g.under (.fill f)).Spares x) (hf : f'.Spares x) :
    (g.under (.fill f')).Spares x where
  params := h.params
  body := by
    refine Expr.Every.refill (fun e φ => ?_) h.body hf
    rw [Expr.scopes_mapParts]
    exact List.forall_mem_map

lemma Proper.refill (h : (g.under (.fill f)).Proper) (hf : f'.Every Expr.Proper) :
    (g.under (.fill f')).Proper where
  name := h.name
  params := h.params
  body := h.body.refill Expr.proper_mapParts hf

end Global

namespace Program

variable {D : Program} {f f' : Expr} {x : Atom}

lemma last?_under (R : Translation) (p : Program) (x : Atom) :
    (p.under R).last? x = (p.last? x).map (Global.under R) := by
  have hfind : ((p.under R).last? x).map Value.global =
      ((p.last? x).map (Global.under R)).map Value.global := by
    rw [← find?_globals, globals_under, Env.find?_under, find?_globals]
    cases p.last? x <;> rfl
  exact Option.map_injective (fun _ _ h => Value.global.inj h) hfind

lemma fill_missing (D : Program) : D.fill (.missing .absent) = D := by
  have hid : Declaration.under (.fill (.missing .absent)) = id := by
    funext d
    cases d with
    | global g => exact congrArg Declaration.global g.under_fill_missing
    | type name => rfl
  unfold fill under
  rw [hid, List.map_id]

lemma mem_fill {g : Global} (hg : .global g ∈ D.declarations) :
    .global (g.under (.fill f)) ∈ (D.fill f).declarations :=
  List.mem_map_of_mem (f := Declaration.under (.fill f)) hg

/-- What holds of all declarations with one filling holds with another. -/
lemma forall_refill {P : Global → Prop}
    (hP : ∀ g : Global, P (g.under (.fill f)) → P (g.under (.fill f')))
    (h : ∀ g, .global g ∈ (D.fill f).declarations → P g) :
    ∀ g, .global g ∈ (D.fill f').declarations → P g := by
  intro g hg
  obtain ⟨d, hd, heq⟩ := List.mem_map.mp hg
  cases d with
  | global h' =>
    cases heq
    exact hP h' (h _ (mem_fill hd))
  | type name => cases heq

/-- A name that nothing binds stands for its last declaration. -/
lemma keeps_globals {p : Program} (hspares : ∀ g, .global g ∈ p.declarations → g.Spares x)
    {g : Global} (hg : p.last? x = some g) : Env.Keeps x g p.globals where
  here := by rw [find?_globals, hg, Option.map_some]
  globals y h hy := by
    rw [find?_globals] at hy
    obtain ⟨h', hh', heq⟩ := Option.map_eq_some_iff.mp hy
    cases heq
    exact hspares h (mem_of_last? hh')
  values y v hv hne := by
    rw [find?_globals] at hv
    obtain ⟨h, -, rfl⟩ := Option.map_eq_some_iff.mp hv
    exact absurd rfl (hne h)

/-- Read with an expression in the place of every gap, a program comes to an end that shows like
this, and has come to a gap so many times. -/
def Reads (c : Expr) (D : Program) (shown : Option (Except (Fault.Category × String) String))
    (k : Nat) : Prop :=
  ∃ enough, ∀ fuel ≥ enough, ∃ r s, (Direct.Reading.marked c).run fuel D = some (r, s) ∧
    r.outcome?.map Outcome.shown = shown ∧ s.evaluations = k

open Direct

variable {g : Global} {body : Expr}

/-- **A program that comes to a result with references comes to it with the body too**, and to a
gap as often as it counts less. -/
theorem run_inlined (h : Refers x g body) (hD : Env.Keeps x g D.globals) {n : Nat}
    {p : Result Value × Store} (hn : Direct.run n (D.fill (.var x)) = some p) :
    ∃ (r : Result Value) (t : Store) (d : Version → Nat),
      d .referring = d .inlined + d .gapped ∧
      p = (r.fill (.var x), t.under (.fill (.var x)) (d .referring)) ∧
      Direct.run (2 * n) (D.fill body) = some (r.fill body, t.under (.fill body) (d .inlined)) ∧
      ∀ c, Stands x g body c → D.Reads c (r.outcome?.map Outcome.shown) (d .gapped) := by
  have hversions : ∀ c, Stands x g body c → ∀ m ≥ 2 * n, ∃ (r : Result Value) (t : Store)
      (d : Version → Nat), d .referring = d .inlined + d .gapped ∧
        p = (r.fill (.var x), t.under (.fill (.var x)) (d .referring)) ∧
        Direct.run (2 * n) (D.fill body) = some (r.fill body, t.under (.fill body) (d .inlined)) ∧
        (Reading.marked c).run m D = some (r.fill (.missing .absent),
          t.under (.fill (.missing .absent)) (d .gapped)) := by
    intro c hc m hm
    have hplain : Reading.plain.run n (D.fill (.var x)) = some p := (Reading.run_plain ..).trans hn
    obtain ⟨r, t, d, hd, hrun⟩ := run_versions h hc hD .referring (Version.layers n (2 * n) m)
      (fun i => by cases i <;> simp [Version.layers, hm])
      (fun hnone => Option.some_ne_none p (hplain.symm.trans hnone))
    refine ⟨r, t, d, hd, Option.some.inj (hplain.symm.trans (hrun .referring)),
      (Reading.run_plain ..).symm.trans (hrun .inlined), ?_⟩
    have hgapped := hrun .gapped
    simp only [Version.filling, D.fill_missing] at hgapped
    exact hgapped
  obtain ⟨r, t, d, hd, rfl, hinlined, -⟩ := hversions body (.inl rfl) (2 * n) le_rfl
  refine ⟨r, t, d, hd, rfl, hinlined, fun c hc => ⟨2 * n, fun m hm => ?_⟩⟩
  obtain ⟨r', t', d', hd', hp, hinlined', hgapped⟩ := hversions c hc m hm
  -- the same two runs were counted, so the difference is the same too
  have hresult : r.fill (.var x) = r'.fill (.var x) := congrArg Prod.fst hp
  have hreferring : d .referring = d' .referring := congrArg (·.2.evaluations) hp
  have hboth : d .inlined = d' .inlined :=
    congrArg (·.2.evaluations) (Option.some.inj (hinlined.symm.trans hinlined'))
  refine ⟨_, _, hgapped, ?_, ?_⟩
  · rw [Result.shown_fill, ← r'.shown_fill (.var x), ← hresult, Result.shown_fill]
  · exact Nat.add_left_cancel (hd'.symm.trans (hreferring.symm.trans (hboth ▸ hd)))

/-- A program that comes to a result with the body comes to one with references. -/
lemma run_of_inlined (h : Refers x g body) (hD : Env.Keeps x g D.globals) {n : Nat}
    {p : Result Value × Store} (hn : Direct.run n (D.fill body) = some p) :
    ∃ p', Direct.run (2 * n) (D.fill (.var x)) = some p' := by
  have hplain : Reading.plain.run n (D.fill body) ≠ none := by
    rw [Reading.run_plain, hn]
    exact Option.some_ne_none p
  obtain ⟨r, t, d, -, hrun⟩ := run_versions h (.inl rfl) hD .inlined
    (Version.layers (2 * n) n (2 * n)) (fun i => by cases i <;> simp [Version.layers]) hplain
  exact ⟨_, (Reading.run_plain ..).symm.trans (hrun .referring)⟩

end Program

/-- **A reference to a global is as good as its body.** Take a valid program without forks and a
global of it that has no parameters and whose name nothing binds. A program with gaps that gives
this program when it is filled with references to the global gives another one when it is filled
with the body, and the gaps may be any of the places where there is a reference. Without a limit on
steps both come to rest or neither does. Then the outcomes of their main processes show alike, or
both are left pending; as many queues are allocated, with contents that show alike; and with the
body as many fewer expressions are evaluated as the run comes to what was put in a gap. The run
with references comes to a gap as often, unless there are gaps in the global itself: a reference
inside of what was put in a gap is no gap any more. -/
theorem Program.comesTo_fill_body {doc : Option Json} {v : Valid} (hv : validate doc = .ok v)
    (hfree : v.program.ForkFree) {x : Atom} {g : Global} (hg : v.program.last? x = some g)
    (hparams : g.params = .ok [])
    (hspares : ∀ h, .global h ∈ v.program.declarations → h.Spares x)
    {D : Program} (hD : D.fill (.var x) = v.program)
    {policy : Policy} (hlimit : ∀ i, policy.forbids i = false) :
    (∀ o s, v.program.ComesTo policy o s → ∃ o' s' k, (D.fill g.body).ComesTo policy o' s' ∧
      o'.map Outcome.shown = o.map Outcome.shown ∧ s'.allocated = s.allocated ∧
      (∀ q, (s'.contents q).map Value.render = (s.contents q).map Value.render) ∧
      s.evaluations = s'.evaluations + k ∧ D.Reads g.body (o.map Outcome.shown) k ∧
      ((∀ h, D.last? x = some h → h.body.Every (·.isGap = false)) →
        D.Reads (.var x) (o.map Outcome.shown) k)) ∧
    ∀ o' s', (D.fill g.body).ComesTo policy o' s' → ∃ o s, v.program.ComesTo policy o s := by
  have hproper : ∀ h, .global h ∈ v.program.declarations → h.Proper := fun h hh =>
    validate_proper hv hh
  rw [← hD] at hg hspares hfree hproper ⊢
  have hgproper := hproper g (Program.mem_of_last? hg)
  have hgspares := hspares g (Program.mem_of_last? hg)
  have hgfree := hfree g (Program.mem_of_last? hg)
  -- the program with the body in the gaps is as proper, and has no forks either
  have hproper' : ∀ h, .global h ∈ (D.fill g.body).declarations → h.Proper :=
    Program.forall_refill (fun h hh => hh.refill hgproper.body) hproper
  have hfree' : (D.fill g.body).ForkFree :=
    Program.forall_refill
      (fun h hh => hh.refill (fun e φ => by rw [e.isFork_mapParts]) hgfree) hfree
  have hrest := @Program.comesTo_iff policy _ hproper hfree hlimit
  have hrest' := @Program.comesTo_iff policy _ hproper' hfree' hlimit
  obtain ⟨h, hh, rfl⟩ : ∃ h, D.last? x = some h ∧ h.under (.fill (.var x)) = g := by
    rw [Program.fill, Program.last?_under] at hg
    exact Option.map_eq_some_iff.mp hg
  have hkeeps : Env.Keeps x h D.globals := by
    refine Program.keeps_globals ?_ hh
    rw [← D.fill_missing]
    exact Program.forall_refill (fun h hh => hh.refill .missing) hspares
  have hrefers : Direct.Refers x h (h.under (.fill (.var x))).body :=
    ⟨hparams, rfl, hgproper.body.imp fun _ => Expr.Proper.isGap, hgspares.body⟩
  refine ⟨fun o s ho => ?_, fun o' s' ho' => ?_⟩
  · obtain ⟨_, ⟨n, hn⟩, rfl⟩ := hrest.mp ho
    obtain ⟨r, t, d, hd, hp, hinlined, hreads⟩ := Program.run_inlined hrefers hkeeps hn
    cases hp
    refine ⟨_, _, d .gapped, hrest'.mpr ⟨_, ⟨2 * n, hinlined⟩, rfl⟩, ?_, rfl, fun q => ?_, hd, ?_,
      fun hgapless => ?_⟩
    · rw [r.shown_fill, r.shown_fill]
    · rw [t.render_under fun _ => rfl, t.render_under fun _ => rfl]
    · rw [r.shown_fill]
      exact hreads _ (.inl rfl)
    · rw [r.shown_fill]
      exact hreads _ (.inr ⟨rfl, (Expr.fill_of_gapless (hgapless h hh) _).symm⟩)
  · obtain ⟨_, ⟨n, hn⟩, rfl⟩ := hrest'.mp ho'
    obtain ⟨p, hp⟩ := Program.run_of_inlined hrefers hkeeps hn
    exact ⟨_, _, hrest.mpr ⟨_, ⟨2 * n, hp⟩, rfl⟩⟩

/-- A document whose main process multiplies two references to a sum, which is made of what the
name in it stands for there. -/
def Json.doubled : Json :=
  let var (name : String) : Json := .object [("kind", .string "var"), ("name", .string name)]
  let arith (op : String) (left right : Json) : Json :=
    .object [("kind", .string op), ("left", left), ("right", right)]
  let declaration (name : String) (body : Json) : Json := .object [("kind", .string "fun"),
    ("name", .string name), ("params", .array []), ("body", body)]
  .object [("declarations", .array [
    declaration "main" (.object [("kind", .string "let"), ("name", .string "n"),
      ("value", .object [("kind", .string "int"), ("value", .number (.integer 3))]),
      ("body", arith "times" (var "double") (var "double"))]),
    declaration "double" (arith "plus" (var "n") (var "n"))])]

/-- Its program, with a gap for the first reference. -/
def Program.doubled : Program :=
  ⟨[.global ⟨.text "main", .ok [], .letIn (.text "n") (.int (.number (.integer 3)))
      (.arith .times (.missing .absent) (.var (.text "double")))⟩,
    .global ⟨.text "double", .ok [], .arith .plus (.var (.text "n")) (.var (.text "n"))⟩]⟩

/-- Its run, and the run with one reference replaced, which evaluates one expression less. -/
theorem Program.comesTo_fill_body_doubled :
    ∃ v g, validate (some .doubled) = .ok v ∧ v.program.last? (.text "double") = some g ∧
      doubled.fill (.var (.text "double")) = v.program ∧
      ∃ s o' s', v.program.ComesTo {} (some (.ok (.int 36))) s ∧ s.evaluations = 11 ∧
        (doubled.fill g.body).ComesTo {} o' s' ∧ o'.map Outcome.shown = some (.ok "36") ∧
        s'.evaluations = 10 := by
  let g : Global := ⟨.text "double", .ok [], .arith .plus (.var (.text "n")) (.var (.text "n"))⟩
  obtain ⟨v, hv, hg, hD⟩ : ∃ v, validate (some .doubled) = .ok v ∧
      v.program.last? (.text "double") = some g ∧
      doubled.fill (.var (.text "double")) = v.program := ⟨_, rfl, rfl, rfl⟩
  have hcode : ∀ h, .global h ∈ v.program.declarations →
      h.body.Every (·.isFork = false) ∧ h.Spares (.text "double") := by
    rw [← hD]
    intro h hh
    simp only [fill, under, doubled, List.map_cons, List.map_nil, List.mem_cons,
      List.not_mem_nil, or_false] at hh
    rcases hh with hh | hh <;> cases hh <;>
      exact ⟨.of_checks (n := 5) rfl, fun ps hps => by cases hps; simp, .of_checks (n := 5) rfl⟩
  obtain ⟨s, hs, hevaluations⟩ : ∃ s, v.program.ComesTo {} (some (.ok (.int 36))) s ∧
      s.evaluations = 11 := by
    rw [← hD]
    exact ⟨_, ⟨99, _, rfl, rfl, rfl⟩, rfl⟩
  obtain ⟨o', s', k, hrun, hshown, -, -, hcount, ⟨enough, hreads⟩, -⟩ :=
    (comesTo_fill_body hv (fun h hh => (hcode h hh).1) hg rfl (fun h hh => (hcode h hh).2) hD
      fun _ => rfl).1 _ s hs
  -- the gap is come to once, however many layers there are
  have hmarked : ((Direct.Reading.marked g.body).run (enough + 9) doubled).map
      (·.2.evaluations) = some 1 := rfl
  obtain ⟨r, t, ht, -, hk⟩ := hreads (enough + 9) (Nat.le_add_right ..)
  rw [ht, Option.map_some, Option.some.injEq, hk] at hmarked
  exact ⟨v, g, hv, hg, hD, s, o', s', hs, hevaluations, hrun, hshown, by omega⟩

end Parley
