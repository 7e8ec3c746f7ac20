import Parley.CommandLine
import Parley.Proofs.Acceptance
import Parley.Proofs.Casting
import Parley.Proofs.Safety
import Parley.Proofs.Tandem

/-!
The ways to run a program: as a program, from its document with or without validation, and from
the command line.

The document of a valid program reads as that program wherever it stands, so what is left to
compare are runs that differ in how many frames lie between the main process and its report. One
more such frame makes the report come one job later, at the end of the jobs that are ready by
then. Up to that moment the two machines do the same, then one of them is ahead by a job, and once
the other has caught up they do the same again.
-/

namespace Parley

/-! ### One more frame above the report -/

/-- The stacks of a process, the second with one more frame if it is the main process. -/
inductive Stack.Late : Stack → Stack → Prop
  | report : Late [.report 0] [.pass, .report 0]
  | settle (task : Atom) (serial : Nat) : Late [.settle task serial] [.settle task serial]
  | cons {f : Frame} {k k' : Stack} (hf : ¬ f.IsBottom) (h : Late k k') : Late (f :: k) (f :: k')

lemma Stack.Late.append {fs k k' : Stack} (hfs : ∀ f ∈ fs, ¬ f.IsBottom) (h : Late k k') :
    Late (fs ++ k) (fs ++ k') := by
  induction fs with
  | nil => exact h
  | cons f fs ih =>
    rw [List.forall_mem_cons] at hfs
    exact .cons hfs.1 (ih hfs.2)

/-- The jobs of two machines, where the second may have a report yet to make. -/
inductive Behind : Option Outcome → List Job → List Job → Prop
  | nil : Behind none [] []
  | cons {x : Option Outcome} {o : Outcome} {k k' : Stack} {js js' : List Job} (hk : k.Late k')
      (h : Behind x js js') : Behind x (⟨o, k⟩ :: js) (⟨o, k'⟩ :: js')
  | report {o : Outcome} {js js' : List Job} (h : Behind none js js') :
      Behind (some o) js (⟨o, [.report 0]⟩ :: js')

namespace Behind

variable {x : Option Outcome} {o : Outcome} {js js' : List Job}

lemma append (h : Behind x js js') {k k' : Stack} (hk : k.Late k') :
    Behind x (js ++ [⟨o, k⟩]) (js' ++ [⟨o, k'⟩]) := by
  induction h with
  | nil => exact .cons hk .nil
  | cons hk' _ ih => exact .cons hk' ih
  | report _ ih => exact .report ih

lemma append_report (h : Behind none js js') (o : Outcome) :
    Behind (some o) js (js' ++ [⟨o, [.report 0]⟩]) := by
  generalize hx : (none : Option Outcome) = x at h
  induction h with
  | nil => exact .report .nil
  | cons hk _ ih => exact .cons hk (ih hx)
  | report => cases hx

end Behind

def Event.first? (es : Array Event) : Option Outcome :=
  (es.find? fun e => e.tag = 0).map (·.outcome)

/-- The same values and faults, with one more frame under the main process. If `x` is there, it is
the report that the second machine has yet to make. -/
def Tie.late (x : Option Outcome) : Tie where
  value v v' := v' = v
  fault f f' := f' = f
  stack := Stack.Late
  jobs := Behind x
  events es es' :=
    match x with
    | none => Event.first? es' = Event.first? es
    | some o => Event.first? es' = none ∧ Event.first? es = some o

namespace Tie

variable {x : Option Outcome}

lemma late_outcome {o o' : Outcome} (h : (late x).outcome o o') : o' = o := by
  cases h with
  | ok h => exact congrArg Except.ok h
  | error h => exact congrArg Except.error h

lemma late_refl (o : Outcome) : (late x).outcome o o := by
  cases o with
  | ok v => exact .ok rfl
  | error f => exact .error rfl

lemma lawful_late : (late x).Lawful where
  unit := rfl
  limit _ := rfl
  showable h := by rw [show _ = _ from h]
  append h ho hk := by
    rw [late_outcome ho]
    exact Behind.append h hk

lemma late_refines {y : Option Outcome} : (late x).Refines (late y) := ⟨id, id, id⟩

lemma faithful_late : (late x).Faithful where
  render h := by rw [show _ = _ from h]
  category h := by rw [show _ = _ from h]
  message h := by rw [show _ = _ from h]

lemma late_deed (d : Deed) : (late x).deed d d := by
  cases d with
  | note t =>
    refine .note ?_
    cases t with
    | enter caption => exact .enter caption
    | leave caption v => exact .leave caption rfl
    | sent v on => exact .sent rfl on
    | received v on => exact .received rfl on
    | finished task v => exact .finished task rfl
    | failed task f => exact .failed task rfl
  | send on v => exact .send on rfl
  | fork e env => exact .fork fun task serial => .cons id (.settle task serial)
  | channel => exact .channel

/-- Frames take the same turns whatever is below them. -/
lemma late_turn {k k' : Stack} (hk : k.Late k') {tracing : Bool} {f : Frame} {v : Value} {t : Turn}
    (ht : f.Takes tracing v t) : (late x).turn k k' t t := by
  refine ⟨List.forall₂_same.mpr fun d _ => late_deed d, ?_⟩
  induction ht with
  | hand o => exact .hand hk (late_refl o)
  | leave | received => exact .hand hk (late_refl _)
  | push _ hp | fork _ hp | channel _ hp =>
    exact .hand (hk.append fun g hg => (hp g hg).isInner.not_isBottom) (late_refl _)
  | send => exact .hand (hk.append (by simp [Frame.IsBottom])) (late_refl _)
  | @count e env gs _ hi =>
    have hgs : ∀ g ∈ Frame.eval e env :: gs, ¬ g.IsBottom :=
      List.forall_mem_cons.mpr ⟨id, fun g hg => (hi g hg).not_isBottom⟩
    exact .count (hk.append hgs)
  | receive => exact .receive (.cons id hk)
  | enter _ _ ih => exact ih

end Tie

/-! ### The two machines -/

namespace Machine

variable {x : Option Outcome} {m m' : Machine}

namespace Tied

/-- Two machines perform their next jobs, and the first may get ahead by a report. -/
lemma late_perform (h : Tied (.late x) m m') (hm : m.InOrder) (hm' : m'.InOrder) {o : Outcome}
    {k k' : Stack} {js js' : List Job} (hj : m.jobs = ⟨o, k⟩ :: js) (hj' : m'.jobs = ⟨o, k'⟩ :: js')
    (hk : k.Late k') (hjs : Behind x js js') : ∃ x', Tied (.late x') m.step m'.step := by
  have hrest : Tied (.late x) { m with jobs := js } { m' with jobs := js' } :=
    { h with jobs := hjs }
  cases hk with
  | settle task serial =>
    exact ⟨x, hrest.perform Tie.lawful_late hm.obeys.unscripted hm'.obeys.unscripted hj hj'
      (.settle (Tie.late_refl o))⟩
  | @cons f k k' hf hk =>
    refine ⟨x, hrest.perform Tie.lawful_late hm.obeys.unscripted hm'.obeys.unscripted hj hj' ?_⟩
    cases o with
    | ok v => exact .turn hf hf fun tracing n => Tie.late_turn hk (f.takes tracing n v)
    | error e => exact .fault hf hf hk rfl
  | report =>
    -- only one report is ever made, so the second machine has none left over
    obtain ⟨-, hnone⟩ := hm.main_of_report hj
    have hevents := h.events
    cases x with
    | some o' =>
      have hsome : m.outcome? 0 = some o' := hevents.2
      rw [hnone] at hsome
      cases hsome
    | none =>
      have hnone' : m'.outcome? 0 = none := hevents.trans hnone
      have hstep' : m'.step = ({ m' with jobs := js' } : Machine).resume [.report 0] o := by
        cases o with
        | ok v => exact ((Moves.turn hj' id).eq_step hm'.obeys).symm
        | error e => exact ((Moves.fault hj' id).eq_step hm'.obeys).symm
      refine ⟨some o, ?_⟩
      rw [← (Moves.report hj).eq_step hm.obeys, hstep']
      have hreport := outcome?_report ({ m with jobs := js } : Machine) 0 o
      rw [show ({ m with jobs := js } : Machine).outcome? 0 = none from hnone] at hreport
      exact h.refines Tie.late_refines (hjs.append_report o) ⟨hnone', hreport⟩

lemma late_level (h : Tied (.late none) m m') (hm : m.InOrder) (hm' : m'.InOrder) :
    ∃ x, Tied (.late x) m.step m'.step := by
  have hjobs : Behind none m.jobs m'.jobs := h.jobs
  generalize hj : m.jobs = js, hj' : m'.jobs = js' at hjobs
  cases hjobs with
  | nil => exact ⟨none, h.release Tie.lawful_late hj hj'⟩
  | cons hk hjs => exact h.late_perform hm hm' hj hj' hk hjs

/-- The second machine makes the report that it had yet to make. -/
lemma late_report {o : Outcome} (h : Tied (.late (some o)) m m') (hm' : m'.InOrder)
    {js' : List Job} (hj' : m'.jobs = ⟨o, [.report 0]⟩ :: js') (hjs : Behind none m.jobs js') :
    Tied (.late none) m m'.step := by
  obtain ⟨hnone, hsome⟩ := h.events
  rw [← (Moves.report hj').eq_step hm'.obeys]
  have hreport := outcome?_report ({ m' with jobs := js' } : Machine) 0 o
  rw [show ({ m' with jobs := js' } : Machine).outcome? 0 = none from hnone] at hreport
  exact h.refines Tie.late_refines hjs (hreport.trans hsome.symm)

/-- **A step of the first machine is matched by one or two of the second.** -/
theorem late_step (h : Tied (.late x) m m') (hm : m.InOrder) (hm' : m'.InOrder) :
    ∃ i x', Tied (.late x') m.step (Machine.step^[i + 1] m') := by
  have hjobs : Behind x m.jobs m'.jobs := h.jobs
  generalize hj : m.jobs = js, hj' : m'.jobs = js' at hjobs
  cases hjobs with
  | nil => exact ⟨0, none, h.release Tie.lawful_late hj hj'⟩
  | cons hk hjs => exact ⟨0, h.late_perform hm hm' hj hj' hk hjs⟩
  | report hjs => exact ⟨1, (h.late_report hm' hj' (hj ▸ hjs)).late_level hm (hm'.iterate 1)⟩

/-- **The second machine follows the first along its run.** -/
theorem late_iterate (h : Tied (.late x) m m') (hm : m.InOrder) (hm' : m'.InOrder) (n : Nat) :
    ∃ i ≥ n, ∃ x', Tied (.late x') (Machine.step^[n] m) (Machine.step^[i] m') := by
  induction n with
  | zero => exact ⟨0, Nat.le_refl 0, x, h⟩
  | succ n ih =>
    obtain ⟨i, hi, x', h'⟩ := ih
    obtain ⟨j, y, hy⟩ := h'.late_step (hm.iterate n) (hm'.iterate i)
    refine ⟨j + 1 + i, by omega, y, ?_⟩
    rwa [Function.iterate_succ_apply', Function.iterate_add_apply]

/-! ### At rest -/

lemma late_outcome? (h : Tied (.late none) m m') : m'.outcome? 0 = m.outcome? 0 := h.events

lemma late_quiet (h : Tied (.late none) m m') (hj : m.jobs = []) (hj' : m'.jobs = []) :
    m'.quiet = m.quiet := by
  have hparked : m.parked = [] ↔ m'.parked = [] := by
    have := h.parked.length_eq
    simp only [← List.length_eq_zero_iff, this]
  rw [Bool.eq_iff_iff]
  simp [quiet, hj, hj', hparked]

/-- If the first machine comes to rest, so does the second. -/
lemma late_rests (h : Tied (.late none) m m') (hm : m.InOrder) (hm' : m'.InOrder) {n : Nat}
    (hq : (Machine.step^[n] m).quiet = true) :
    ∃ i, (Machine.step^[i] m').quiet = true ∧
      Tied (.late none) (Machine.step^[n] m) (Machine.step^[i] m') := by
  obtain ⟨i, -, x, hx⟩ := h.late_iterate hm hm' n
  have hj : (Machine.step^[n] m).jobs = [] := by
    simp only [quiet, Bool.and_eq_true, List.isEmpty_iff] at hq
    exact hq.1
  have hjobs : Behind x _ _ := hx.jobs
  rw [hj] at hjobs
  generalize hj' : (Machine.step^[i] m').jobs = js' at hjobs
  cases hjobs with
  | nil => exact ⟨i, (hx.late_quiet hj hj').trans hq, hx⟩
  | report hjs =>
    have hlevel := hx.late_report (hm'.iterate i) hj' (hj ▸ hjs)
    rw [← Function.iterate_succ_apply' Machine.step i m'] at hlevel
    have hnone : Behind none [] (Machine.step^[i + 1] m').jobs := hj ▸ hlevel.jobs
    have hj'' : (Machine.step^[i + 1] m').jobs = [] := by
      generalize (Machine.step^[i + 1] m').jobs = js at hnone
      cases hnone
      rfl
    exact ⟨i + 1, (hlevel.late_quiet hj hj'').trans hq, hlevel⟩

/-- If the second machine comes to rest, so does the first. -/
lemma late_rests_back (h : Tied (.late none) m m') (hm : m.InOrder) (hm' : m'.InOrder) {i : Nat}
    (hq : (Machine.step^[i] m').quiet = true) :
    ∃ n, (Machine.step^[n] m).quiet = true ∧
      Tied (.late none) (Machine.step^[n] m) (Machine.step^[i] m') := by
  -- after as many steps of the first machine, the second has taken at least `i` and rests
  obtain ⟨j, hij, x, hx⟩ := h.late_iterate hm hm' i
  obtain ⟨d, rfl⟩ := Nat.exists_eq_add_of_le' hij
  rw [Function.iterate_add_apply, iterate_of_quiet hq] at hx
  have hj' : (Machine.step^[i] m').jobs = [] := by
    simp only [quiet, Bool.and_eq_true, List.isEmpty_iff] at hq
    exact hq.1
  have hjobs : Behind x _ _ := hx.jobs
  rw [hj'] at hjobs
  generalize hj : (Machine.step^[i] m).jobs = js at hjobs
  cases hjobs with
  | nil => exact ⟨i, (hx.late_quiet hj hj').symm.trans hq, hx⟩

/-- **Runs with one more frame give the same accounts.** -/
theorem late_reports (h : Tied (.late none) m m') (hm : m.InOrder) (hm' : m'.InOrder)
    (R : Report) :
    Reports (Finished.ofMachine · 0 m) R ↔ Reports (Finished.ofMachine · 0 m') R := by
  have hreport : ∀ {a a' : Machine}, Tied (.late none) a a' →
      (⟨a', Guard.conclude (a'.outcome? 0), []⟩ : Finished).report =
        (⟨a, Guard.conclude (a.outcome? 0), []⟩ : Finished).report := fun {a a'} ha => by
    rw [ha.late_outcome?]
    exact Tie.faithful_late.report_eq ha (Tie.late_refl _)
  constructor
  · rintro ⟨fuel, f, hf, rfl⟩
    obtain ⟨n, hq, rfl⟩ := Finished.exists_of_ofMachine hf
    obtain ⟨i, hi, htied⟩ := h.late_rests hm hm' hq
    exact ⟨i + 1, _, Finished.ofMachine_of_quiet hi, hreport htied⟩
  · rintro ⟨fuel, f, hf, rfl⟩
    obtain ⟨i, hq, rfl⟩ := Finished.exists_of_ofMachine hf
    obtain ⟨n, hn, htied⟩ := h.late_rests_back hm hm' hq
    exact ⟨n + 1, _, Finished.ofMachine_of_quiet hn, (hreport htied).symm⟩

/-- A program starts in the same way whatever is below its main process. -/
lemma late_start (policy : Policy) (p : Program) {k k' : Stack} (hk : k.Late k') :
    Tied (.late none) (({ policy } : Machine).startProgram p k)
      (({ policy } : Machine).startProgram p k') := by
  obtain ⟨q, hq, hstart⟩ := p.opens [] (by simp) (by simp)
  have hfresh : Tied (.late none) { policy } { policy } := .fresh policy .nil rfl
  rw [show ({ policy } : Machine).startProgram p k = q.apply k _ from hstart _ k,
    show ({ policy } : Machine).startProgram p k' = q.apply k' _ from hstart _ k']
  refine hfresh.sequel Tie.lawful_late ?_
  cases hq with
  | hand hp _ o =>
    exact .hand (hk.append fun g hg => (hp g hg).isInner.not_isBottom) (Tie.late_refl o)
  | @count e env gs hp =>
    have hgs : ∀ g ∈ Frame.eval e env :: gs, ¬ g.IsBottom :=
      List.forall_mem_cons.mpr ⟨id, fun g hg => (hp g hg).isInner.not_isBottom⟩
    exact .count (hk.append hgs)

end Tied

lemma inOrder_passes (policy : Policy) (p : Program) (n : Nat) :
    (({ policy } : Machine).startProgram p (List.replicate n .pass ++ [.report 0])).InOrder := by
  have hpass : ∀ f ∈ List.replicate n Frame.pass, f = .pass := fun f => List.eq_of_mem_replicate
  refine inOrder_startProgram (Obeys.fresh .any policy)
    ((Balanced.fresh policy).regrow fun f hf => hpass f hf ▸ id) ?_ p
  refine .append (fun f hf => hpass f hf ▸ trivial) fun f hf => ?_
  rw [List.mem_singleton.mp hf]
  exact .inr trivial

end Machine

/-! ### Documents -/

section

variable {doc : Json} {v : Valid}

/-- A document that writes a program reads as it, wherever it stands. -/
lemma Program.Written.ofJson? {p : Program} {kept : Json} (h : p.Written doc kept) (place : Place) :
    Program.ofJson? place (some doc) = some p := by
  obtain ⟨ms, rfl, hms⟩ := Form.WithMembers.members h
  obtain ⟨_, _, hi, items, rfl, -, hitems⟩ := List.forall_mem_singleton.mp hms
  rw [List.forall₂_map_left_iff] at hitems
  simp [Program.ofJson?, Json.get?, hi, Declaration.ofJson?, Declaration.list?_written hitems]

/-- A document that is accepted writes the program that it is accepted as. -/
lemma written_of_validate (h : validate (some doc) = .ok v) : v.program.Written doc v.doc := by
  have hb : ¬ Form.Breaks .program doc := fun hb => by
    rw [validate_of_breaks hb] at h
    cases h
  by_cases hf : Form.Fits .program doc
  · have hw := Program.ofJson_written hf
    rw [validate_of_written hb hw] at h
    split at h
    · cases h
      exact hw
    · cases h
  · obtain ⟨fs, -, he⟩ := validate_of_not_fits hb hf
    rw [he] at h
    cases h

/-- A run of a document without validation is a run of its program. -/
lemma runUnchecked_of_written {p : Program} {kept : Json} (h : p.Written doc kept) (fuel : Nat)
    (policy : Policy) (place : Place) :
    runUnchecked fuel policy place (some doc) = p.run fuel policy := by
  unfold runUnchecked
  rw [h.ofJson? place]

/-- **Validation makes no difference to a run** of a document that it accepts. -/
theorem interpret_reports (hv : validate (some doc) = .ok v) (policy : Policy) (R : Report) :
    Reports (interpret · policy (some doc)) R ↔ Reports (v.program.run · policy) R := by
  have hin := Machine.inOrder_passes policy v.program
  have hfirst := (Machine.Tied.late_start policy v.program .report).late_reports (hin 0) (hin 1) R
  unfold interpret Program.run
  cases hmain : v.program.main? with
  | some g =>
    have hstart : ({ policy } : Machine).startDocument (some doc) [.report 0] =
        ({ policy } : Machine).startProgram v.program [.pass, .report 0] := by
      simp only [Machine.startDocument, hv, hmain]
    rw [hstart]
    exact hfirst.symm
  | none =>
    have hstart : ({ policy } : Machine).startDocument (some doc) [.report 0] =
        ({ policy } : Machine).startProgram v.program [.pass, .pass, .report 0] := by
      simp only [Machine.startDocument, hv, hmain]
    have hsecond := (Machine.Tied.late_start policy v.program (.cons id .report)).late_reports
      (hin 1) (hin 2) R
    rw [hstart]
    exact (hfirst.trans hsecond).symm

end

/-! ### The command line -/

namespace Machine

variable {D : Discipline} {m : Machine}

lemma outcome?_step (hm : m.Obeys D) {o : Outcome} (h : m.outcome? 0 = some o) :
    m.step.outcome? 0 = some o := by
  generalize hs : m.step = s
  have hmoves : Moves m s := hs ▸ step_moves hm
  cases hmoves with
  | rest | release | drop | fault => exact h
  | @turn f v k rest =>
    rw [(Keeps.turn { m with jobs := rest } (f.turn m.policy.tracing m.allocated v) k).outcome?_eq]
    exact h
  | @settle task serial o' k rest =>
    have hkeeps : Keeps { m with jobs := rest } _ :=
      Keeps.settle (m := { m with jobs := rest }) hm.awaiting task serial o'
    rw [hkeeps.outcome?_eq]
    exact h
  | @report tag o' k rest =>
    have hreport := outcome?_report ({ m with jobs := rest } : Machine) tag o'
    rw [show ({ m with jobs := rest } : Machine).outcome? 0 = some o from h] at hreport
    exact hreport

lemma log_step (hm : m.Obeys D) : m.log.toList <+: m.step.log.toList := by
  generalize hs : m.step = s
  have hmoves : Moves m s := hs ▸ step_moves hm
  cases hmoves with
  | rest | release | drop | fault | report => exact List.prefix_rfl
  | turn =>
    rw [log_turn]
    exact List.prefix_append ..
  | @settle task serial o k rest =>
    rw [settle_of_nobody (m := { m with jobs := rest }) hm.awaiting]
    cases o with
    | ok v =>
      simp only
      split
      · rw [log_trace]
        exact List.prefix_append ..
      · exact List.prefix_rfl
    | error f =>
      simp only [note, Array.toList_push]
      exact List.prefix_append ..

/-- What a machine is at some moment is still to be found in it later. -/
lemma later (hm : m.InOrder) {i n : Nat} (hin : i ≤ n) :
    (∀ o, (Machine.step^[i] m).outcome? 0 = some o → (Machine.step^[n] m).outcome? 0 = some o) ∧
      (Machine.step^[i] m).log.toList <+: (Machine.step^[n] m).log.toList := by
  induction n, hin using Nat.le_induction with
  | base => exact ⟨fun _ => id, List.prefix_rfl⟩
  | succ n _ ih =>
    rw [Function.iterate_succ_apply']
    have hn := (hm.iterate n).obeys
    exact ⟨fun o ho => outcome?_step hn (ih.1 o ho), ih.2.trans (log_step hn)⟩

/-- A machine that comes to rest is stopped there or before. -/
lemma exists_of_runUntil (stop : Machine → Bool) {n : Nat}
    (h : (Machine.step^[n] m).quiet = true) : ∃ i ≤ n,
      m.runUntil stop (n + 1) = some (Machine.step^[i] m) ∧
        (stop (Machine.step^[i] m) = true ∨ (Machine.step^[i] m).quiet = true) := by
  induction n generalizing m with
  | zero =>
    have hq : m.quiet = true := h
    exact ⟨0, Nat.le_refl 0, by simp [runUntil, hq], .inr hq⟩
  | succ n ih =>
    cases hs : stop m || m.quiet with
    | true =>
      refine ⟨0, Nat.zero_le _, ?_, by simpa using hs⟩
      rw [runUntil, if_pos hs]
      rfl
    | false =>
      rw [Function.iterate_succ_apply] at h
      obtain ⟨i, hi, hrun, hstop⟩ := ih h
      refine ⟨i + 1, by omega, ?_, hstop⟩
      rw [runUntil, if_neg (by simp [hs])]
      exact hrun

end Machine

namespace CommandLine

/-- The output tells how the main process ended, with these lines of diagnostics: a value is what
is printed, and a fault is one more line between the others. -/
def Output.Tells (out : Output) (o : Outcome) (lines : List Line) : Prop :=
  match o with
  | .ok v =>
    out.code = 0 ∧ out.stdout = Json.Half.replaced (v.render ++ "\n") ∧
      out.stderr = Json.Half.replaced (consoleText lines)
  | .error f => ∃ code before after, f.category = .coded code ∧ before ++ after = lines ∧
      out.code = 1 ∧ out.stdout = "" ∧
      out.stderr = Json.Half.replaced (consoleText before ++
        (code.display ++ ": " ++ f.message ++ "\n") ++ consoleText after)

lemma replaced_empty : Json.Half.replaced "" = "" := by decide +kernel

lemma output_tells (notes : List Note) (logged : Nat) {o : Outcome}
    (ho : ∀ f, o = .error f → ∃ code, f.category = .coded code) :
    ∃ out, output notes logged o = .ok out ∧ out.printed.Tells o (notes.map Note.line) := by
  cases o with
  | ok v => exact ⟨_, rfl, rfl, rfl, rfl⟩
  | error f =>
    obtain ⟨code, hcode⟩ := ho f rfl
    let before := (notes.take logged).map Note.line
    let after := (notes.drop logged).map Note.line
    have hout : output notes logged (.error f) = .ok { code := 1, stderr := consoleText before ++
        (code.display ++ ": " ++ f.message ++ "\n") ++ consoleText after } := by
      simp only [output, hcode]
      rfl
    refine ⟨_, hout, code, before, after, hcode, ?_, rfl, replaced_empty, rfl⟩
    rw [← List.map_append, List.take_append_drop]

/-- Where a machine is stopped, its report is told about, and a deadlock if there is none. -/
lemma stopped_tells (m : Machine) (hcoded : ∀ f, Guard.conclude (m.outcome? 0) = .error f →
    ∃ code, f.category = .coded code) :
    ∃ out, (match m.events.find? fun e => e.tag = 0 with
      | some e => output m.log.toList e.logged e.outcome
      | none => output m.log.toList m.log.size (.error .deadlock)) = .ok out ∧
      out.printed.Tells (Guard.conclude (m.outcome? 0)) (m.log.toList.map Note.line) := by
  cases hfind : m.events.find? fun e => e.tag = 0 with
  | some e =>
    have ho : m.outcome? 0 = some e.outcome := by
      simp only [Machine.outcome?, hfind, Option.map_some]
    rw [ho, Guard.conclude_some] at hcoded ⊢
    exact output_tells _ _ hcoded
  | none =>
    have ho : m.outcome? 0 = none := by simp only [Machine.outcome?, hfind, Option.map_none]
    rw [ho, Guard.conclude_none] at hcoded ⊢
    exact output_tells _ _ hcoded

/-- A program that comes to rest is told about by the command line, with the notes taken until
then or a part of them: what is parked or blocked is given up. -/
lemma runProgram_tells {policy : Policy} {p : Program} {n : Nat}
    (hq : (Machine.step^[n]
      (({ policy } : Machine).startProgram p [.pass, .report 0])).quiet = true)
    (hcoded : ∀ f, Guard.conclude ((Machine.step^[n]
      (({ policy } : Machine).startProgram p [.pass, .report 0])).outcome? 0) = .error f →
        ∃ code, f.category = .coded code) :
    ∃ out lines, (∀ more ≥ n + 1, runProgram more policy p = some (.ok out)) ∧
      lines <+: (Machine.step^[n] (({ policy } : Machine).startProgram p
        [.pass, .report 0])).log.toList.map Note.line ∧
      out.printed.Tells (Guard.conclude ((Machine.step^[n]
        (({ policy } : Machine).startProgram p [.pass, .report 0])).outcome? 0)) lines := by
  have hin : (({ policy } : Machine).startProgram p [.pass, .report 0]).InOrder :=
    Machine.inOrder_passes policy p 1
  let ended (m : Machine) : Bool := m.jobs.isEmpty && (m.outcome? 0).isSome
  have hrun : ∀ more, runProgram more policy p =
      ((({ policy } : Machine).startProgram p [.pass, .report 0]).runUntil ended more).map fun m =>
        match m.events.find? fun e => e.tag = 0 with
        | some e => output m.log.toList e.logged e.outcome
        | none => output m.log.toList m.log.size (.error .deadlock) := fun _ => rfl
  generalize ({ policy } : Machine).startProgram p [.pass, .report 0] = m₀ at hq hcoded hin hrun ⊢
  obtain ⟨i, hi, hstopped, hstop⟩ := Machine.exists_of_runUntil ended hq
  obtain ⟨hlater, hlog⟩ := Machine.later hin hi
  -- the machine is stopped with the outcome that it is at rest with
  have hsame : (Machine.step^[n] m₀).outcome? 0 = (Machine.step^[i] m₀).outcome? 0 := by
    rcases hstop with hended | hquiet
    · simp only [ended, Bool.and_eq_true, Option.isSome_iff_exists] at hended
      obtain ⟨-, o, ho⟩ := hended
      rw [ho]
      exact hlater o ho
    · obtain ⟨d, rfl⟩ := Nat.exists_eq_add_of_le' hi
      rw [Function.iterate_add_apply, Machine.iterate_of_quiet hquiet]
  rw [hsame] at hcoded ⊢
  obtain ⟨out, hout, htells⟩ := stopped_tells _ hcoded
  refine ⟨out, _, fun more hmore => ?_, hlog.map Note.line, htells⟩
  rw [hrun, Machine.runUntil_of_le hstopped hmore, Option.map_some, hout]

end CommandLine

lemma coded_of_run {doc : Option Json} {v : Valid} (hv : validate doc = .ok v) {policy : Policy}
    {fuel : Nat} {r : Finished} (hr : v.program.run fuel policy = some r) {f : Fault}
    (hf : r.outcome = .error f) : ∃ code, f.category = .coded code := by
  obtain ⟨m, hm, rfl⟩ := Option.map_eq_some_iff.mp hr
  have hfaults := (Program.Reaches.start.drain hm).faults fun g hg => validate_proper hv hg
  simp only at hf
  cases ho : m.outcome? 0 with
  | none =>
    rw [ho, Guard.conclude_none] at hf
    cases hf
    exact ⟨_, rfl⟩
  | some o =>
    rw [ho, Guard.conclude_some] at hf
    subst hf
    obtain ⟨e, he, hout⟩ := Option.map_eq_some_iff.mp ho
    obtain ⟨c, -, hc⟩ := hfaults.reported e (Array.mem_of_find?_eq_some he) f hout
    exact ⟨_, hc⟩

/-- **All ways to run a valid document run the same program.** Whatever else the document holds,
and whatever the policy is, its run with validation gives the same account as the run of the
program that it is accepted as, and the run of the document without validation, or of what is
kept of it, is that run. Read from a text by the command line, under the limits that it sets, a
program that comes to rest is told about: its value with code 0, or its fault with code 1, and a
deadlock if the main process is still suspended. -/
theorem entry_points_agree {doc : Json} {v : Valid} (hv : validate (some doc) = .ok v) :
    (∀ policy R, Reports (interpret · policy (some doc)) R ↔ Reports (v.program.run · policy) R) ∧
    (∀ fuel policy place, runUnchecked fuel policy place (some doc) = v.program.run fuel policy ∧
      runUnchecked fuel policy place (some v.doc) = v.program.run fuel policy) ∧
    ∀ (a : Arguments) (traced : Bool) (source : String) (fuel : Nat) (r : Finished),
      Json.parse? source = some doc →
      v.program.run fuel (.limits a.maxSteps none none (a.trace || traced)) = some r →
      r.outcome = (r.machine.outcome? 0).getD (.error .deadlock) ∧
      ∃ out enough lines,
        (∀ more ≥ enough, CommandLine.runText more a traced source = some (.ok out)) ∧
        lines <+: r.machine.log.toList.map Note.line ∧ out.Tells r.outcome lines := by
  refine ⟨interpret_reports hv, fun fuel policy place => ⟨?_, ?_⟩, ?_⟩
  · exact runUnchecked_of_written (written_of_validate hv) fuel policy place
  · exact runUnchecked_of_written (validate_written hv) fuel policy place
  intro a traced source fuel r hsource hr
  have hcoded := fun f => coded_of_run hv hr (f := f)
  obtain ⟨n, hq, rfl⟩ := Finished.exists_of_ofMachine hr
  -- the run of the command line has one more frame under its main process
  have hin := Machine.inOrder_passes (.limits a.maxSteps none none (a.trace || traced)) v.program
  obtain ⟨i, hi, htied⟩ :=
    (Machine.Tied.late_start _ v.program .report).late_rests (hin 0) (hin 1) hq
  have hsame := htied.late_outcome?
  have hlines := map_eq_of_forall₂ htied.log fun _ _ => Tie.faithful_late.line
  simp only at hcoded ⊢
  rw [← hsame] at hcoded ⊢
  obtain ⟨out, lines, hrun, hlog, htells⟩ := CommandLine.runProgram_tells hi hcoded
  refine ⟨?_, out.printed, i + 1, lines, fun more hmore => ?_, hlines ▸ hlog, htells⟩
  · cases Machine.outcome? _ 0 <;> rfl
  · simp only [CommandLine.runText, load, hsource, hv, hrun more hmore]
    rfl

/-- The text of a program that waits on a channel of its own, with members that are no part of
it. -/
def stuckText : String :=
  "\x7b\"declarations\":[\x7b\"kind\":\"fun\",\"name\":\"main\",\"params\":[],\"line\":3,\"body\":" ++
  "\x7b\"kind\":\"recv\",\"channel\":\x7b\"kind\":\"fst\",\"expr\":\x7b\"kind\":\"new\"\x7d\x7d\x7d\x7d]," ++
  "\"version\":[1,null]\x7d"

/-- It comes to rest with its main process suspended, and the command line tells of a
deadlock. -/
theorem entry_points_agree_stuckText : ∃ doc v r,
    Json.parse? stuckText = some doc ∧ validate (some doc) = .ok v ∧
      v.program.run 20 (.limits none none none true) = some r ∧
      (∃ fuel f, interpret fuel (.limits none none none true) (some doc) = some f ∧
        f.report = r.report) ∧
      runUnchecked 20 (.limits none none none true) [] (some doc) = some r ∧
      ∃ out enough lines,
        (∀ more ≥ enough, CommandLine.runText more {} true stuckText = some (.ok out)) ∧
        lines <+: r.machine.log.toList.map Note.line ∧ out.Tells (.error .deadlock) lines := by
  have hstuck : (((load stuckText).toOption.bind fun v =>
      v.program.run 20 (.limits none none none true)).any fun r =>
        (r.machine.outcome? 0).isNone) = true := by decide +kernel
  cases hload : load stuckText with
  | error r =>
    rw [hload] at hstuck
    cases hstuck
  | ok v =>
    simp only [hload, Except.toOption, Option.bind_some] at hstuck
    cases hr : v.program.run 20 (.limits none none none true) with
    | none =>
      rw [hr] at hstuck
      cases hstuck
    | some r =>
      rw [hr, Option.any_some, Option.isNone_iff_eq_none] at hstuck
      unfold load at hload
      split at hload
      · next doc hdoc =>
        obtain ⟨hreports, hsame, htold⟩ := entry_points_agree hload
        obtain ⟨houtcome, htells⟩ := htold {} true stuckText 20 r hdoc hr
        rw [houtcome, hstuck] at htells
        exact ⟨doc, v, r, hdoc, hload, hr, (hreports _ _).mpr ⟨20, r, hr, rfl⟩,
          (hsame _ _ _).1.trans hr, htells⟩
      · cases hload

end Parley
