import Parley.Arguments
import Parley.Proofs.Decimals

/-!
Which command lines are understood. A line without errors is a sequence of groups: flags, an
option with its count, and at most one path. In any line every argument plays exactly one part,
which only depends on the arguments around it, and what is understood is what the parts give,
taken together in order.
-/

namespace Parley.Arguments

/-! ### Words -/

def IsTrace (s : String) : Prop := s = "--trace" ∨ s = "-t"

def IsHelp (s : String) : Prop := s = "--help" ∨ s = "-h"

def IsDashed (s : String) : Prop := s.toList.head? = some '-'

/-- A count of steps: decimal digits, not all of them zeros. -/
def IsCount (s : String) : Prop :=
  (∀ c ∈ s.toList, '0' ≤ c ∧ c ≤ '9') ∧ ∃ c ∈ s.toList, c ≠ '0'

abbrev Count := { s : String // IsCount s }

def StartsWithCount (args : List String) : Prop := ∃ count rest, args = count :: rest ∧ IsCount count

def Count.number (c : Count) : Number := .nearest false (Nat.ofDigitChars 10 c.1.toList 0) 1

instance (s : String) : Decidable (IsTrace s) := inferInstanceAs (Decidable (_ ∨ _))

instance (s : String) : Decidable (IsHelp s) := inferInstanceAs (Decidable (_ ∨ _))

instance (s : String) : Decidable (IsDashed s) := inferInstanceAs (Decidable (_ = _))

lemma IsTrace.isDashed {s : String} (h : IsTrace s) : IsDashed s := by
  rcases h with rfl | rfl <;> simp [IsDashed]

lemma IsHelp.isDashed {s : String} (h : IsHelp s) : IsDashed s := by
  rcases h with rfl | rfl <;> simp [IsDashed]

lemma IsHelp.not_isTrace {s : String} (h : IsHelp s) : ¬ IsTrace s := by
  rcases h with rfl | rfl <;> simp [IsTrace]

lemma isDashed_maxSteps : IsDashed "--max-steps" := by simp [IsDashed]

lemma not_isTrace_maxSteps : ¬ IsTrace "--max-steps" := by simp [IsTrace]

lemma not_isHelp_maxSteps : ¬ IsHelp "--max-steps" := by simp [IsHelp]

lemma IsCount.not_isDashed {s : String} (h : IsCount s) : ¬ IsDashed s := fun hs =>
  absurd (h.1 '-' (List.mem_of_mem_head? hs)) (by decide)

/-! ### Counts -/

/-- Digits stand for zero if and only if they are all zeros. -/
lemma ofDigitChars_eq_zero {cs : List Char} (h : ∀ c ∈ cs, '0' ≤ c ∧ c ≤ '9') (n : Nat) :
    Nat.ofDigitChars 10 cs n = 0 ↔ n = 0 ∧ ∀ c ∈ cs, c = '0' := by
  induction cs generalizing n with
  | nil => simp [Nat.ofDigitChars_nil]
  | cons c cs ih =>
    obtain ⟨hc, hcs⟩ := List.forall_mem_cons.mp h
    have hlow := (Literal.toNat_of_isDigit (Form.isDigit_iff.mpr hc)).1
    have hzero : c.toNat - '0'.toNat = 0 ↔ c = '0' := by
      have h0 : '0'.toNat = 48 := rfl
      constructor
      · intro hd
        exact Char.toNat_inj.mp (by omega)
      · rintro rfl
        rfl
    rw [Nat.ofDigitChars_cons, ih hcs, List.forall_mem_cons, ← hzero]
    constructor
    · rintro ⟨hsum, hall⟩
      exact ⟨by omega, by omega, hall⟩
    · rintro ⟨rfl, hd, hall⟩
      exact ⟨by omega, hall⟩

lemma Count.digits (c : Count) : ∀ x ∈ c.1.toList, Json.Parser.isDigit x = true := fun x hx =>
  Form.isDigit_iff.mpr (c.2.1 x hx)

lemma Count.ne_nil (c : Count) : c.1.toList ≠ [] := by
  obtain ⟨x, hx, -⟩ := c.2.2
  exact List.ne_nil_of_mem hx

lemma positive?_of_digits {s : String} (hne : s.toList ≠ [])
    (h : ∀ c ∈ s.toList, '0' ≤ c ∧ c ≤ '9') :
    positive? s = if Nat.ofDigitChars 10 s.toList 0 = 0 then none
      else some (.nearest false (Nat.ofDigitChars 10 s.toList 0) 1) := by
  have hall : (!s.toList.isEmpty && s.toList.all Json.Parser.isDigit) = true := by
    simpa [hne] using fun c hc => Form.isDigit_iff.mpr (h c hc)
  unfold positive?
  simp only [hall, if_true, Literal.digitsValue_eq]
  split
  · next hz => rw [if_pos hz]
  · next hz => rw [if_neg hz, Number.ofDecimal_zero]

lemma positive?_count (c : Count) : positive? c.1 = some c.number := by
  rw [positive?_of_digits c.ne_nil c.2.1, if_neg]
  · rfl
  · rw [ofDigitChars_eq_zero c.2.1]
    rintro ⟨-, hall⟩
    obtain ⟨x, hx, hne⟩ := c.2.2
    exact hne (hall x hx)

lemma positive?_of_not_isCount {s : String} (h : ¬ IsCount s) : positive? s = none := by
  by_cases hall : (!s.toList.isEmpty && s.toList.all Json.Parser.isDigit) = true
  · simp only [Bool.and_eq_true, Bool.not_eq_true', List.isEmpty_eq_false_iff, List.all_eq_true]
      at hall
    have hdigits : ∀ c ∈ s.toList, '0' ≤ c ∧ c ≤ '9' := fun c hc =>
      Form.isDigit_iff.mp (hall.2 c hc)
    rw [positive?_of_digits hall.1 hdigits, if_pos]
    refine (ofDigitChars_eq_zero hdigits 0).mpr ⟨rfl, fun c hc => ?_⟩
    by_contra hne
    exact h ⟨hdigits, c, hc, hne⟩
  · exact if_neg hall

lemma Count.numeral?_eq (c : Count) : Form.numeral? c.1 = some c.number := by
  simp only [Form.numeral?, Literal.trim_digits c.digits, Literal.integer?_eq c.digits c.ne_nil]
  rfl

/-! ### Taking together -/

/-- What several pieces give: the first path, every flag, the last limit and all errors. -/
def merge (bs : List Arguments) : Arguments where
  path := bs.findSome? (·.path)
  trace := bs.any (·.trace)
  help := bs.any (·.help)
  maxSteps := (bs.filterMap (·.maxSteps)).getLast?
  errors := bs.flatMap (·.errors)

lemma merge_nil : merge [] = {} := rfl

lemma merge_cons (a : Arguments) (bs : List Arguments) :
    merge (a :: bs) = {
      path := a.path.or (merge bs).path
      trace := a.trace || (merge bs).trace
      help := a.help || (merge bs).help
      maxSteps := (merge bs).maxSteps.or a.maxSteps
      errors := a.errors ++ (merge bs).errors } := by
  have hlast : ((a :: bs).filterMap (·.maxSteps)).getLast? =
      (bs.filterMap (·.maxSteps)).getLast?.or a.maxSteps := by
    rw [List.filterMap_cons]
    cases h : a.maxSteps with
    | none => simp
    | some n => rw [List.getLast?_cons]; cases (bs.filterMap (·.maxSteps)).getLast? <;> rfl
  have hpath : (a :: bs).findSome? (·.path) = a.path.or (bs.findSome? (·.path)) := by
    rw [List.findSome?_cons]
    cases a.path <;> rfl
  simp only [merge, hlast, hpath, List.any_cons, List.flatMap_cons]

lemma merge_singleton (a : Arguments) : merge [a] = a := by
  simp [merge_cons, merge_nil]

/-- A piece may be taken together with the one before it. -/
lemma merge_merge (a b : Arguments) (bs : List Arguments) :
    merge (merge [a, b] :: bs) = merge (a :: b :: bs) := by
  simp only [merge_cons, merge_nil, Option.or_assoc, Bool.or_assoc, List.append_assoc,
    Option.or_none, Option.none_or, Bool.or_false, List.append_nil]

/-! ### Groups -/

inductive Group
  | trace (word : String) (h : IsTrace word)
  | help (word : String) (h : IsHelp word)
  | maxSteps (count : Count)
  | path (word : String) (h : ¬ IsDashed word)

namespace Group

def words : Group → List String
  | trace word _ => [word]
  | help word _ => [word]
  | maxSteps count => ["--max-steps", count.1]
  | path word _ => [word]

def given : Group → Arguments
  | trace _ _ => { trace := true }
  | help _ _ => { help := true }
  | maxSteps count => { maxSteps := some count.number }
  | path word _ => { path := some word }

def isPath : Group → Bool
  | path _ _ => true
  | _ => false

end Group

/-- A line that consists of groups, with one path at most. -/
def IsLine (gs : List Group) (args : List String) : Prop :=
  args = gs.flatMap Group.words ∧ gs.countP Group.isPath ≤ 1

lemma takeAll_cons {arg : String} (h : arg ≠ "--max-steps") (a : Arguments) (rest : List String) :
    a.takeAll (arg :: rest) = (a.take arg).takeAll rest := by
  rw [takeAll]
  · exact fun h' _ => h h'
  · exact fun _ _ h' _ => h h'

lemma takeAll_count (a : Arguments) (c : Count) (rest : List String) :
    a.takeAll ("--max-steps" :: c.1 :: rest) =
      (merge [a, { maxSteps := some c.number }]).takeAll rest := by
  rw [takeAll, positive?_count]
  simp [merge_cons, merge_nil]

lemma take_eq (a : Arguments) (arg : String) :
    a.take arg = if IsTrace arg then { a with trace := true }
      else if IsHelp arg then { a with help := true }
      else if IsDashed arg then a.addError (.unknownOption arg)
      else match a.path with
        | some _ => a.addError (.unexpected arg)
        | none => { a with path := some arg } := rfl

lemma take_trace {arg : String} (h : IsTrace arg) (a : Arguments) :
    a.take arg = merge [a, { trace := true }] := by
  rw [take_eq, if_pos h]
  simp [merge_cons, merge_nil]

lemma take_help {arg : String} (h : IsHelp arg) (a : Arguments) :
    a.take arg = merge [a, { help := true }] := by
  rw [take_eq, if_neg h.not_isTrace, if_pos h]
  simp [merge_cons, merge_nil]

lemma take_unknown {arg : String} (h : IsDashed arg) (ht : ¬ IsTrace arg) (hh : ¬ IsHelp arg)
    (a : Arguments) : a.take arg = merge [a, { errors := [.unknownOption arg] }] := by
  rw [take_eq, if_neg ht, if_neg hh, if_pos h]
  simp [merge_cons, merge_nil, addError]

lemma take_path {arg : String} (h : ¬ IsDashed arg) {a : Arguments} (ha : a.path = none) :
    a.take arg = merge [a, { path := some arg }] := by
  rw [take_eq, if_neg (mt IsTrace.isDashed h), if_neg (mt IsHelp.isDashed h), if_neg h]
  simp [merge_cons, merge_nil, ha]

lemma take_unexpected {arg : String} (h : ¬ IsDashed arg) {a : Arguments} (ha : a.path ≠ none) :
    a.take arg = merge [a, { errors := [.unexpected arg] }] := by
  obtain ⟨p, hp⟩ := Option.ne_none_iff_exists'.mp ha
  rw [take_eq, if_neg (mt IsTrace.isDashed h), if_neg (mt IsHelp.isDashed h), if_neg h]
  simp [merge_cons, merge_nil, hp, addError]

lemma takeAll_uncounted {rest : List String} (h : ¬ StartsWithCount rest) (a : Arguments) :
    a.takeAll ("--max-steps" :: rest) = (merge [a, { errors := [.badMaxSteps] }]).takeAll rest := by
  have hadd : a.addError .badMaxSteps = merge [a, { errors := [.badMaxSteps] }] := by
    simp [merge_cons, merge_nil, addError]
  cases rest with
  | nil => exact hadd
  | cons count rest =>
    have hcount : ¬ IsCount count := fun hc => h ⟨count, rest, rfl, hc⟩
    rw [takeAll, positive?_of_not_isCount hcount, ← hadd]

/-! ### Parts -/

inductive Role
  | trace
  | help
  /-- `--max-steps` with a count behind it. -/
  | limit
  | count (c : Count)
  | path (word : String)
  | culprit (e : Error)

def Role.given : Role → Arguments
  | trace => { trace := true }
  | help => { help := true }
  | limit => {}
  | count c => { maxSteps := some c.number }
  | path word => { path := some word }
  | culprit e => { errors := [e] }

/-- An argument that is neither an option nor the count of one. -/
def IsPositional (before : List String) (arg : String) : Prop :=
  ¬ IsDashed arg ∧ ¬ (before.getLast? = some "--max-steps" ∧ IsCount arg)

def HasPositional (args : List String) : Prop :=
  ∃ before arg after, args = before ++ arg :: after ∧ IsPositional before arg

inductive Plays (before : List String) (arg : String) (after : List String) : Role → Prop
  | trace (h : IsTrace arg) : Plays before arg after .trace
  | help (h : IsHelp arg) : Plays before arg after .help
  | limit (h : arg = "--max-steps") (counted : StartsWithCount after) : Plays before arg after .limit
  | count (h : IsCount arg) (counts : before.getLast? = some "--max-steps") :
    Plays before arg after (.count ⟨arg, h⟩)
  | path (h : IsPositional before arg) (first : ¬ HasPositional before) :
    Plays before arg after (.path arg)
  | uncounted (h : arg = "--max-steps") (uncounted : ¬ StartsWithCount after) :
    Plays before arg after (.culprit .badMaxSteps)
  | unknown (h : IsDashed arg) (notTrace : ¬ IsTrace arg) (notHelp : ¬ IsHelp arg)
      (notLimit : arg ≠ "--max-steps") : Plays before arg after (.culprit (.unknownOption arg))
  | unexpected (h : IsPositional before arg) (later : HasPositional before) :
    Plays before arg after (.culprit (.unexpected arg))

variable {before after : List String} {arg : String}

lemma Plays.unique {r r' : Role} (h : Plays before arg after r) (h' : Plays before arg after r') :
    r = r' := by
  have htrace : IsTrace arg → IsDashed arg := IsTrace.isDashed
  have hhelp : IsHelp arg → IsDashed arg ∧ ¬ IsTrace arg := fun h => ⟨h.isDashed, h.not_isTrace⟩
  have hlimit : arg = "--max-steps" → IsDashed arg ∧ ¬ IsTrace arg ∧ ¬ IsHelp arg := by
    rintro rfl
    exact ⟨isDashed_maxSteps, not_isTrace_maxSteps, not_isHelp_maxSteps⟩
  have hcount : IsCount arg → ¬ IsDashed arg := IsCount.not_isDashed
  cases h <;> cases h' <;> grind [IsPositional]

/-- The parts of arguments behind others, in order. -/
inductive Casts : List String → List String → List Role → Prop
  | nil {before : List String} : Casts before [] []
  | cons {before : List String} {arg : String} {after : List String} {r : Role} {rs : List Role}
      (head : Plays before arg after r)
      (tail : Casts (before ++ [arg]) after rs) : Casts before (arg :: after) (r :: rs)

lemma Casts.length_eq {args : List String} {rs : List Role} (h : Casts before args rs) :
    rs.length = args.length := by
  induction h with
  | nil => rfl
  | cons _ _ ih => rw [List.length_cons, List.length_cons, ih]

lemma Casts.plays {args : List String} {rs : List Role} (h : Casts before args rs)
    {inner : List String} (he : args = inner ++ arg :: after) :
    ∃ r, rs[inner.length]? = some r ∧ Plays (before ++ inner) arg after r := by
  induction h generalizing inner with
  | nil => simp at he
  | cons head tail ih =>
    cases inner with
    | nil =>
      cases he
      exact ⟨_, rfl, by rwa [List.append_nil]⟩
    | cons x inner =>
      cases he
      obtain ⟨r, hr, hplays⟩ := ih rfl
      exact ⟨r, hr, by rwa [List.append_assoc] at hplays⟩

lemma hasPositional_append :
    HasPositional (before ++ [arg]) ↔ HasPositional before ∨ IsPositional before arg := by
  constructor
  · rintro ⟨b, x, c, he, hx⟩
    rcases List.eq_nil_or_concat c with rfl | ⟨c, y, rfl⟩
    · obtain ⟨rfl, hl⟩ := List.append_inj' he rfl
      cases hl
      exact .inr hx
    · have hsplit : before ++ [arg] = (b ++ x :: c) ++ [y] := by simpa using he
      obtain ⟨rfl, -⟩ := List.append_inj' hsplit rfl
      exact .inl ⟨b, x, c, rfl, hx⟩
  · rintro (⟨b, x, c, rfl, hx⟩ | hx)
    · exact ⟨b, x, c ++ [arg], by simp, hx⟩
    · exact ⟨before, arg, [], rfl, hx⟩

/-- What has been taken holds a path if and only if there has been a positional argument. -/
lemma Plays.path_iff {r : Role} (h : Plays before arg after r) {a : Arguments}
    (hpath : a.path ≠ none ↔ HasPositional before) :
    (merge [a, r.given]).path ≠ none ↔ HasPositional (before ++ [arg]) := by
  have hdashed : IsDashed arg → ¬ IsPositional before arg := fun h hp => hp.1 h
  rw [hasPositional_append, ← hpath]
  cases h with
  | trace h => simp [merge_cons, merge_nil, Role.given, hdashed h.isDashed]
  | help h => simp [merge_cons, merge_nil, Role.given, hdashed h.isDashed]
  | limit h => simp [merge_cons, merge_nil, Role.given, hdashed (h ▸ isDashed_maxSteps)]
  | uncounted h => simp [merge_cons, merge_nil, Role.given, hdashed (h ▸ isDashed_maxSteps)]
  | unknown h => simp [merge_cons, merge_nil, Role.given, hdashed h]
  | count h counts =>
    have hnot : ¬ IsPositional before arg := fun hp => hp.2 ⟨counts, h⟩
    simp [merge_cons, merge_nil, Role.given, hnot]
  | path h => simp [merge_cons, merge_nil, Role.given, h]
  | unexpected h later => simp [merge_cons, merge_nil, Role.given, h, hpath.mpr later]

/-- Arguments behind others lead from `a` to `b` by what their parts give. -/
def LeadsBy (before : List String) (a : Arguments) (args : List String) (b : Arguments) : Prop :=
  ∃ rs, Casts before args rs ∧ b = merge (a :: rs.map Role.given)

lemma LeadsBy.cons {r : Role} (h : Plays before arg after r) {a b : Arguments}
    (ih : LeadsBy (before ++ [arg]) (merge [a, r.given]) after b) :
    LeadsBy before a (arg :: after) b := by
  obtain ⟨rs, hrs, he⟩ := ih
  exact ⟨r :: rs, .cons h hrs, by rw [he, merge_merge, List.map_cons]⟩

/-- **Arguments are taken by their parts**, if so far a path has been given exactly if there was a
positional argument, and no option is waiting for its count. -/
lemma leadsBy_takeAll (a : Arguments) (args : List String)
    (hpath : a.path ≠ none ↔ HasPositional before)
    (hcount : before.getLast? = some "--max-steps" → ¬ StartsWithCount args) :
    LeadsBy before a args (a.takeAll args) := by
  -- an option and its count are taken at once, so the induction is on the length
  induction hn : args.length using Nat.strong_induction_on generalizing before a args with
  | h n ih =>
    subst hn
    cases args with
    | nil => exact ⟨[], .nil, (merge_singleton a).symm⟩
    | cons arg rest =>
      have hone : ∀ {r : Role}, Plays before arg rest r →
          a.takeAll (arg :: rest) = (merge [a, r.given]).takeAll rest →
          (arg = "--max-steps" → ¬ StartsWithCount rest) →
          LeadsBy before a (arg :: rest) (a.takeAll (arg :: rest)) := by
        intro r hr ht hnext
        rw [ht]
        exact .cons hr (ih _ (by simp) _ _ (hr.path_iff hpath) (by simpa using hnext) rfl)
      by_cases hlimit : arg = "--max-steps"
      · subst hlimit
        by_cases hstart : StartsWithCount rest
        · obtain ⟨count, rest, rfl, hc⟩ := hstart
          have hl : Plays before "--max-steps" (count :: rest) .limit :=
            .limit rfl ⟨count, rest, rfl, hc⟩
          have hp : Plays (before ++ ["--max-steps"]) count rest (.count ⟨count, hc⟩) :=
            .count hc (by simp)
          have hnone : merge [a, Role.limit.given] = a := by
            simp [merge_cons, merge_nil, Role.given]
          have hlast : (before ++ ["--max-steps"] ++ [count]).getLast? ≠ some "--max-steps" := by
            rw [List.getLast?_concat, Ne, Option.some_inj]
            rintro rfl
            exact hc.not_isDashed isDashed_maxSteps
          have hpath' := hp.path_iff (hl.path_iff hpath)
          rw [takeAll_count a ⟨count, hc⟩]
          refine .cons hl (.cons hp ?_)
          rw [hnone] at hpath' ⊢
          refine ih _ ?_ _ _ hpath' (fun h => absurd h hlast) rfl
          simp only [List.length_cons]
          omega
        · exact hone (.uncounted rfl hstart) (takeAll_uncounted hstart a) fun _ => hstart
      · have hnext : arg = "--max-steps" → ¬ StartsWithCount rest := fun h => absurd h hlimit
        have ht := takeAll_cons hlimit a rest
        by_cases htrace : IsTrace arg
        · exact hone (.trace htrace) (by rw [ht, take_trace htrace]; rfl) hnext
        by_cases hhelp : IsHelp arg
        · exact hone (.help hhelp) (by rw [ht, take_help hhelp]; rfl) hnext
        by_cases hdashed : IsDashed arg
        · exact hone (.unknown hdashed htrace hhelp hlimit)
            (by rw [ht, take_unknown hdashed htrace hhelp]; rfl) hnext
        have hpos : IsPositional before arg :=
          ⟨hdashed, fun ⟨hlast, hc⟩ => hcount hlast ⟨arg, rest, rfl, hc⟩⟩
        by_cases hnone : a.path = none
        · exact hone (.path hpos (mt hpath.mpr (not_not.mpr hnone)))
            (by rw [ht, take_path hdashed hnone]; rfl) hnext
        · exact hone (.unexpected hpos (hpath.mp hnone))
            (by rw [ht, take_unexpected hdashed hnone]; rfl) hnext

/-! ### Lines without errors -/

/-- A group is taken as a whole, unless it is a second path. -/
lemma takeAll_words (g : Group) {a : Arguments} (h : g.isPath = true → a.path = none)
    (rest : List String) : a.takeAll (g.words ++ rest) = (merge [a, g.given]).takeAll rest := by
  cases g with
  | trace word hw =>
    have hne : word ≠ "--max-steps" := fun he => not_isTrace_maxSteps (he ▸ hw)
    exact (takeAll_cons hne a rest).trans (by rw [take_trace hw]; rfl)
  | help word hw =>
    have hne : word ≠ "--max-steps" := fun he => not_isHelp_maxSteps (he ▸ hw)
    exact (takeAll_cons hne a rest).trans (by rw [take_help hw]; rfl)
  | maxSteps count => exact takeAll_count a count rest
  | path word hw =>
    have hne : word ≠ "--max-steps" := fun he => hw (he ▸ isDashed_maxSteps)
    exact (takeAll_cons hne a rest).trans (by rw [take_path hw (h rfl)]; rfl)

/-- Groups are taken one by one, if only one path is given. -/
lemma takeAll_groups (gs : List Group) (a : Arguments)
    (h : gs.countP Group.isPath + a.path.toList.length ≤ 1) :
    a.takeAll (gs.flatMap Group.words) = merge (a :: gs.map Group.given) := by
  induction gs generalizing a with
  | nil => exact (merge_singleton a).symm
  | cons g gs ih =>
    have hpath : g.isPath = true → a.path = none := by
      intro hg
      rw [List.countP_cons_of_pos hg] at h
      cases ha : a.path with
      | none => rfl
      | some p => simp [ha] at h
    have hnext : gs.countP Group.isPath + (merge [a, g.given]).path.toList.length ≤ 1 := by
      cases g with
      | path word hw =>
        rw [List.countP_cons_of_pos rfl, hpath rfl] at h
        simpa [merge_cons, merge_nil, Group.given, hpath rfl] using h
      | _ => simpa [merge_cons, merge_nil, Group.given, Group.isPath] using h
    rw [List.flatMap_cons, takeAll_words g hpath, ih _ hnext, merge_merge, List.map_cons]

/-- Arguments that are taken without an error consist of groups. -/
lemma exists_groups (a : Arguments) (args : List String) (h : (a.takeAll args).errors = []) :
    a.errors = [] ∧ ∃ gs : List Group, args = gs.flatMap Group.words ∧
      gs.countP Group.isPath + a.path.toList.length ≤ 1 := by
  fun_induction takeAll a args with
  | case1 a => exact ⟨h, [], rfl, by cases a.path <;> simp⟩
  | case2 a => simp [addError] at h
  | case3 a count rest n hn ih =>
    -- a count that gives a limit is a numeral
    have hc : IsCount count := by
      by_contra hc
      rw [positive?_of_not_isCount hc] at hn
      cases hn
    obtain ⟨he, gs, rfl, hgs⟩ := ih h
    exact ⟨he, .maxSteps ⟨count, hc⟩ :: gs, rfl, by simpa [Group.isPath] using hgs⟩
  | case4 a count rest hn ih => exact absurd (ih h).1 (by simp [addError])
  | case5 a arg rest hne hne' ih =>
    obtain ⟨he, gs, rfl, hgs⟩ := ih h
    -- a flag, an unknown option, the first path or one too many
    by_cases htrace : IsTrace arg
    · rw [take_trace htrace] at he hgs
      simp only [merge_cons, merge_nil, List.append_nil, Option.or_none] at he hgs
      exact ⟨he, .trace arg htrace :: gs, rfl, by simpa [Group.isPath] using hgs⟩
    by_cases hhelp : IsHelp arg
    · rw [take_help hhelp] at he hgs
      simp only [merge_cons, merge_nil, List.append_nil, Option.or_none] at he hgs
      exact ⟨he, .help arg hhelp :: gs, rfl, by simpa [Group.isPath] using hgs⟩
    by_cases hdashed : IsDashed arg
    · rw [take_unknown hdashed htrace hhelp] at he
      simp [merge_cons] at he
    by_cases hnone : a.path = none
    · rw [take_path hdashed hnone] at he hgs
      simp only [merge_cons, merge_nil, List.append_nil, Option.or_none] at he
      refine ⟨he, .path arg hdashed :: gs, rfl, ?_⟩
      rw [List.countP_cons_of_pos rfl, hnone]
      simpa [merge_cons, merge_nil, hnone] using hgs
    · rw [take_unexpected hdashed hnone] at he
      simp [merge_cons] at he

/-- **Every argument is accounted for.** There are no errors if and only if the line consists of
groups with one path at most, and then what is understood is what the groups give: the path, the
flags that occur, and the number of the last count. In every line each argument plays exactly one
part, and what is understood is what the parts give, the errors in their order; the number of a
count is that of its text. -/
theorem parse_accounts_for_arguments (args : List String) :
    ((parse args).errors = [] ↔ ∃ gs, IsLine gs args) ∧
    (∀ gs, IsLine gs args → parse args = merge (gs.map Group.given)) ∧
    (∃ roles : List Role, roles.length = args.length ∧
      (∀ before arg after, args = before ++ arg :: after → ∀ r,
        roles[before.length]? = some r ↔ Plays before arg after r) ∧
      parse args = merge (roles.map Role.given)) ∧
    ∀ c : Count, Form.numeral? c.1 = some c.number := by
  have hempty : ∀ bs, merge ({} :: bs) = merge bs := fun bs => by simp [merge_cons]
  have hgroups : ∀ gs, IsLine gs args → parse args = merge (gs.map Group.given) := by
    rintro gs ⟨rfl, hgs⟩
    rw [parse, takeAll_groups gs {} hgs, hempty]
  refine ⟨⟨fun h => ?_, fun ⟨gs, hgs⟩ => ?_⟩, hgroups, ?_, Count.numeral?_eq⟩
  · obtain ⟨-, gs, hargs, hgs⟩ := exists_groups {} args h
    exact ⟨gs, hargs, hgs⟩
  · have hnone : ∀ g : Group, g.given.errors = [] := fun g => by cases g <;> rfl
    rw [hgroups gs hgs]
    simp [merge, hnone]
  · have hstart : ({} : Arguments).path ≠ none ↔ HasPositional [] := by simp [HasPositional]
    obtain ⟨rs, hrs, he⟩ := leadsBy_takeAll {} args hstart (by simp)
    refine ⟨rs, hrs.length_eq, fun before arg after hargs r => ?_, by rw [parse, he, hempty]⟩
    obtain ⟨r', hr', hplays⟩ := hrs.plays hargs
    rw [hr', Option.some_inj]
    exact ⟨fun h => h ▸ hplays, hplays.unique⟩

end Parley.Arguments
