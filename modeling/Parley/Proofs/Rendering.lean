import Parley.Proofs.Numerals

/-!
Values in print. Where no label holds a comma or a closing bracket, the text of a value tells all
of it but its closures: two values of the same text have the same structure, with the same
integers, labels and queues.
-/

namespace Parley

def QueueId.IsNumbered (q : QueueId) : Prop := ∃ x : Number, q.atom = .number x ∧ x.IsBinary64

lemma QueueId.isNumbered_allocated {n : Nat} (h : n < 2 ^ 53) : (allocated n).IsNumbered :=
  ⟨.integer n, rfl, n, 0, h, by omega, by simp⟩

/-- The numbers that a document names queues by are all of that kind. -/
lemma QueueId.isNumbered_ofDecimal (origin : Nat) (negative : Bool) (digits : Nat) (e : Int) :
    (outside origin (.number (.ofDecimal negative digits e))).IsNumbered :=
  ⟨_, rfl, Number.isBinary64_ofDecimal negative digits e⟩

namespace Value

/-- Values without globals, whose labels hold no mark that ends a part of a pair. -/
inductive Legible : Value → Prop
  | unit : Legible .unit
  | int (n : Int) : Legible (.int n)
  | label {s : String} (h : ∀ c ∈ s.toList, c ≠ ',' ∧ c ≠ '>') : Legible (.label (.text s))
  | pair {a b : Value} (ha : Legible a) (hb : Legible b) : Legible (.pair a b)
  | closure {v : Value} (h : v.kind = .closure) : Legible v
  | channel {e : Endpoint} (hread : e.read.IsNumbered) (hwrite : e.write.IsNumbered) :
      Legible (.channel e)

/-- Values of the same structure, with equal integers and labels and with queues that go by the
same numbers. Closures are all alike. -/
inductive Alike : Value → Value → Prop
  | unit : Alike .unit .unit
  | int (n : Int) : Alike (.int n) (.int n)
  | label (name : Atom) : Alike (.label name) (.label name)
  | pair {a a' b b' : Value} (ha : Alike a a') (hb : Alike b b') : Alike (.pair a b) (.pair a' b')
  | closure {v w : Value} (hv : v.kind = .closure) (hw : w.kind = .closure) : Alike v w
  | channel {e e' : Endpoint} (hread : e.read.atom = e'.read.atom)
      (hwrite : e.write.atom = e'.write.atom) : Alike (.channel e) (.channel e')

variable {v w : Value}

lemma render_of_closure (h : v.kind = .closure) : v.render = "<closure>" := by
  cases v with
  | function | sender | identity => rfl
  | _ => cases h

lemma Alike.render_eq (h : v.Alike w) : v.render = w.render := by
  induction h with
  | unit | int | label => rfl
  | pair _ _ iha ihb => rw [render, render, iha, ihb]
  | closure hv hw => rw [render_of_closure hv, render_of_closure hw]
  | channel hread hwrite => rw [render, render, hread, hwrite]

/-! ### The text of a value as characters -/

lemma toList_pair (a b : Value) (r : List Char) : (pair a b).render.toList ++ r =
    '<' :: (a.render.toList ++ ',' :: ' ' :: (b.render.toList ++ '>' :: r)) := by
  simp [render]

lemma toList_channel (e : Endpoint) (r : List Char) : (channel e).render.toList ++ r =
    "<channel #".toList ++ (e.read.atom.display.toList ++ '/' :: '#' ::
      (e.write.atom.display.toList ++ '>' :: r)) := by
  simp [render]

lemma toList_label (s : String) (r : List Char) :
    (label (.text s)).render.toList ++ r = '\'' :: (s.toList ++ r) := by
  simp [render]

/-- The text of an integer is made of digits, with a minus or without. -/
lemma mem_toList_int {n : Int} {c : Char} (h : c ∈ (int n).render.toList) :
    c = '-' ∨ '0' ≤ c ∧ c ≤ '9' := by
  induction n using Literal.sign_cases with
  | nonneg n =>
    rw [Literal.toList_render_natCast] at h
    exact .inr (Literal.digit_of_mem_toDigits h)
  | neg n hn =>
    rw [Literal.toList_render_neg hn] at h
    exact (List.mem_cons.mp h).imp_right Literal.digit_of_mem_toDigits

lemma exists_toList_int (n : Int) : ∃ c cs, (int n).render.toList = c :: cs := by
  induction n using Literal.sign_cases with
  | nonneg n =>
    rw [Literal.toList_render_natCast]
    exact List.exists_cons_of_ne_nil Nat.toDigits_ne_nil
  | neg n hn => exact ⟨'-', _, Literal.toList_render_neg hn⟩

/-- The characters that stand for other things do not stand in integers. -/
lemma no_marks_int {n : Int} {c d : Char} (h : c ∈ (int n).render.toList) (hminus : d ≠ '-')
    (hdigit : Json.Parser.isDigit d = false) : c ≠ d := by
  rintro rfl
  rcases mem_toList_int h with hc | hc
  · exact hminus hc
  · rw [Form.isDigit_iff.mpr hc] at hdigit
    cases hdigit

/-! ### What a text begins with -/

/-- The variant of a value by the first characters of its text. -/
def kindShown : List Char → Kind
  | '(' :: _ => .unit
  | '\'' :: _ => .label
  | '<' :: 'c' :: 'l' :: _ => .closure
  | '<' :: 'c' :: _ => .channel
  | '<' :: _ => .pair
  | _ => .int

lemma kindShown_int (n : Int) (r : List Char) : kindShown ((int n).render.toList ++ r) = .int := by
  obtain ⟨c, cs, hcs⟩ := exists_toList_int n
  have hc : c ∈ (int n).render.toList := hcs ▸ List.mem_cons_self
  have hround := no_marks_int hc (d := '(') (by decide) (by decide)
  have hquote := no_marks_int hc (d := '\'') (by decide) (by decide)
  have hangle := no_marks_int hc (d := '<') (by decide) (by decide)
  rw [hcs, List.cons_append]
  unfold kindShown
  split <;> simp_all

lemma Legible.exists_head (h : v.Legible) : ∃ c cs, v.render.toList = c :: cs ∧ c ≠ 'c' := by
  cases h with
  | unit => exact ⟨'(', _, rfl, by decide⟩
  | int n =>
    obtain ⟨c, cs, hcs⟩ := exists_toList_int n
    have hc : c ∈ (Value.int n).render.toList := hcs ▸ List.mem_cons_self
    exact ⟨c, cs, hcs, no_marks_int hc (by decide) (by decide)⟩
  | label h => exact ⟨'\'', _, by simpa using toList_label _ [], by decide⟩
  | pair ha hb => exact ⟨'<', _, by simpa using toList_pair _ _ [], by decide⟩
  | closure h => exact ⟨'<', _, by rw [render_of_closure h]; rfl, by decide⟩
  | channel hread hwrite => exact ⟨'<', _, by simpa using toList_channel _ [], by decide⟩

lemma Legible.kindShown_eq (h : v.Legible) (r : List Char) :
    kindShown (v.render.toList ++ r) = v.kind := by
  cases h with
  | unit => rfl
  | int n => exact kindShown_int n r
  | label h =>
    rw [toList_label]
    rfl
  | pair ha hb =>
    obtain ⟨c, cs, hc, hne⟩ := ha.exists_head
    rw [toList_pair, hc, List.cons_append]
    unfold kindShown
    split <;> simp_all [kind]
  | closure h =>
    rw [render_of_closure h, h]
    rfl
  | channel hread hwrite =>
    rw [toList_channel]
    rfl

/-! ### Reading a value off the front of a text -/

lemma append_inj_of_mark {p : Char → Bool} {xs ys r s : List Char} (hx : ∀ c ∈ xs, p c = true)
    (hy : ∀ c ∈ ys, p c = true) (hr : ∀ c ∈ r.head?, p c = false)
    (hs : ∀ c ∈ s.head?, p c = false) (h : xs ++ r = ys ++ s) : xs = ys ∧ r = s := by
  have hstop : ∀ {t : List Char}, (∀ c ∈ t.head?, p c = false) → t.takeWhile p = [] := by
    intro t ht
    cases t with
    | nil => rfl
    | cons c t => rw [List.takeWhile_cons, ht c rfl]; rfl
  have htake := congrArg (List.takeWhile p) h
  rw [List.takeWhile_append_of_pos hx, List.takeWhile_append_of_pos hy, hstop hr, hstop hs,
    List.append_nil, List.append_nil] at htake
  subst htake
  exact ⟨rfl, List.append_cancel_left h⟩

/-- Behind a part of a pair stands a mark; behind the whole text nothing. -/
def Ends (r : List Char) : Prop := ∀ c ∈ r.head?, c = ',' ∨ c = '>'

def isInner (c : Char) : Bool := c ≠ ',' && c ≠ '>'

lemma Ends.not_inner {r : List Char} (h : Ends r) : ∀ c ∈ r.head?, isInner c = false := by
  intro c hc
  rcases h c hc with rfl | rfl <;> rfl

lemma int_of_append {n n' : Int} {r s : List Char} (hr : Ends r) (hs : Ends s)
    (h : (int n).render.toList ++ r = (int n').render.toList ++ s) : n = n' ∧ r = s := by
  have hinner : ∀ {k : Int}, ∀ c ∈ (int k).render.toList, isInner c = true := fun c hc => by
    have hcomma := no_marks_int hc (d := ',') (by decide) (by decide)
    have hclose := no_marks_int hc (d := '>') (by decide) (by decide)
    simp [isInner, hcomma, hclose]
  obtain ⟨htext, hrest⟩ := append_inj_of_mark hinner hinner hr.not_inner hs.not_inner h
  -- as a literal, the text of an integer denotes it
  have hvalue := (Literal.denotes_render n).toInt
  rw [String.toList_inj.mp htext, (Literal.denotes_render n').toInt] at hvalue
  exact ⟨(Except.ok.inj hvalue).symm, hrest⟩

lemma label_of_append {t t' : String} (ht : ∀ c ∈ t.toList, c ≠ ',' ∧ c ≠ '>')
    (ht' : ∀ c ∈ t'.toList, c ≠ ',' ∧ c ≠ '>') {r s : List Char} (hr : Ends r) (hs : Ends s)
    (h : (label (.text t)).render.toList ++ r = (label (.text t')).render.toList ++ s) :
    t = t' ∧ r = s := by
  rw [toList_label, toList_label] at h
  obtain ⟨htext, hrest⟩ := append_inj_of_mark (p := isInner) (by simpa [isInner] using ht)
    (by simpa [isInner] using ht') hr.not_inner hs.not_inner (List.cons.inj h).2
  exact ⟨String.toList_inj.mp htext, hrest⟩

/-- A number is known from the text up to the mark of a channel that follows it. -/
lemma number_of_append {x y : Number} (hx : x.IsBinary64) (hy : y.IsBinary64) {d : Char}
    (hd : d = '/' ∨ d = '>') {r s : List Char}
    (h : x.toText.toList ++ d :: r = y.toText.toList ++ d :: s) : x = y ∧ r = s := by
  have hfree : ∀ {z : Number}, z.IsBinary64 → ∀ c ∈ z.toText.toList, (c ≠ d : Bool) = true := by
    intro z hz c hc
    obtain ⟨hslash, hclose⟩ := hz.no_marks c hc
    rcases hd with rfl | rfl
    · exact decide_eq_true hslash
    · exact decide_eq_true hclose
  obtain ⟨htext, h⟩ := append_inj_of_mark (p := fun c => c ≠ d) (hfree hx) (hfree hy) (by simp)
    (by simp) h
  exact ⟨Number.toText_inj hx hy (String.toList_inj.mp htext), (List.cons.inj h).2⟩

lemma channel_of_append {e e' : Endpoint} (hread : e.read.IsNumbered) (hwrite : e.write.IsNumbered)
    (hread' : e'.read.IsNumbered) (hwrite' : e'.write.IsNumbered) {r s : List Char}
    (h : (channel e).render.toList ++ r = (channel e').render.toList ++ s) :
    e.read.atom = e'.read.atom ∧ e.write.atom = e'.write.atom ∧ r = s := by
  obtain ⟨x, hx, hx64⟩ := hread
  obtain ⟨x', hx', hx64'⟩ := hread'
  obtain ⟨y, hy, hy64⟩ := hwrite
  obtain ⟨y', hy', hy64'⟩ := hwrite'
  rw [toList_channel, toList_channel, hx, hx', hy, hy'] at h
  obtain ⟨hxx, htail⟩ := number_of_append hx64 hx64' (.inl rfl) (List.append_cancel_left h)
  obtain ⟨hyy, hrest⟩ := number_of_append hy64 hy64' (.inr rfl) (List.cons.inj htail).2
  rw [hx, hx', hy, hy', hxx, hyy]
  exact ⟨rfl, rfl, hrest⟩

lemma Legible.kind_eq (hv : v.Legible) (hw : w.Legible) {r s : List Char}
    (h : v.render.toList ++ r = w.render.toList ++ s) : v.kind = w.kind := by
  rw [← hv.kindShown_eq r, ← hw.kindShown_eq s, h]

/-- **Unique readability.** A value is known from its text, whatever is behind it. -/
lemma Legible.alike_of_append (hv : v.Legible) (hw : w.Legible) {r s : List Char} (hr : Ends r)
    (hs : Ends s) (h : v.render.toList ++ r = w.render.toList ++ s) : v.Alike w ∧ r = s := by
  -- in each case the texts begin alike, so the values are of one variant
  induction hv generalizing w r s with
  | unit =>
    have hkind := Legible.unit.kind_eq hw h
    cases hw with
    | unit => exact ⟨.unit, List.append_cancel_left h⟩
    | closure hw => cases hkind.trans hw
    | _ => cases hkind
  | int n =>
    have hkind := (Legible.int n).kind_eq hw h
    cases hw with
    | int n' =>
      obtain ⟨rfl, hrest⟩ := int_of_append hr hs h
      exact ⟨.int n, hrest⟩
    | closure hw => cases hkind.trans hw
    | _ => cases hkind
  | label ht =>
    have hkind := (Legible.label ht).kind_eq hw h
    cases hw with
    | label ht' =>
      obtain ⟨rfl, hrest⟩ := label_of_append ht ht' hr hs h
      exact ⟨.label _, hrest⟩
    | closure hw => cases hkind.trans hw
    | _ => cases hkind
  | pair ha hb iha ihb =>
    have hkind := (Legible.pair ha hb).kind_eq hw h
    cases hw with
    | pair ha' hb' =>
      rw [toList_pair, toList_pair] at h
      have hcomma : ∀ t, Ends (',' :: t) := by simp [Ends]
      have hclose : ∀ t, Ends ('>' :: t) := by simp [Ends]
      obtain ⟨hfirst, h⟩ := iha ha' (hcomma _) (hcomma _) (List.cons.inj h).2
      obtain ⟨hsecond, h⟩ := ihb hb' (hclose _) (hclose _) (List.cons.inj (List.cons.inj h).2).2
      exact ⟨.pair hfirst hsecond, (List.cons.inj h).2⟩
    | closure hw => cases hkind.trans hw
    | _ => cases hkind
  | closure hc =>
    have hc' := ((Legible.closure hc).kind_eq hw h).symm.trans hc
    rw [render_of_closure hc, render_of_closure hc'] at h
    exact ⟨.closure hc hc', List.append_cancel_left h⟩
  | channel hread hwrite =>
    have hkind := (Legible.channel hread hwrite).kind_eq hw h
    cases hw with
    | channel hread' hwrite' =>
      obtain ⟨hreads, hwrites, hrest⟩ := channel_of_append hread hwrite hread' hwrite' h
      exact ⟨.channel hreads hwrites, hrest⟩
    | closure hw => cases hkind.trans hw
    | _ => cases hkind

/-- **The text of a value is unambiguous.** Values whose labels hold neither a comma nor a closing
bracket show as the same text if and only if they have the same structure, with equal integers,
equal labels, and channels of equally numbered queues. -/
theorem render_eq_iff_alike (hv : v.Legible) (hw : w.Legible) :
    v.render = w.render ↔ v.Alike w := by
  refine ⟨fun h => ?_, Alike.render_eq⟩
  have hends : Ends [] := by simp [Ends]
  exact (hv.alike_of_append hw hends hends (by rw [h])).1

def bracketedNames (closure : Value) (e : Endpoint) : Value :=
  pair (pair (label "closure") closure) (channel e)

lemma legible_bracketedNames {closure : Value} {e : Endpoint} (h : closure.kind = .closure)
    (hread : e.read.IsNumbered) (hwrite : e.write.IsNumbered) :
    (bracketedNames closure e).Legible := by
  have hname : ("closure".toList.all fun c => c ≠ ',' ∧ c ≠ '>') = true := by decide
  exact .pair (.pair (.label fun c hc => of_decide_eq_true (List.all_eq_true.mp hname c hc))
    (.closure h)) (.channel hread hwrite)

/-- Different closures, and queues from different places that go by the same numbers. -/
theorem bracketedNames_alike :
    (bracketedNames identity
      ⟨.allocated 0, .outside 0 (.number (.ofDecimal false 5 (-1)))⟩).render =
        "<<'closure, <closure>>, <channel #0/#0.5>>" ∧
    (bracketedNames identity
      ⟨.allocated 0, .outside 0 (.number (.ofDecimal false 5 (-1)))⟩).Alike
        (bracketedNames (sender ⟨.allocated 2, .allocated 3⟩)
          ⟨.outside 1 (.number (.integer 0)), .outside 1 (.number (.fraction 1 0))⟩) := by
  refine ⟨by decide +kernel, (render_eq_iff_alike (legible_bracketedNames rfl ?_ ?_)
    (legible_bracketedNames rfl ?_ ?_)).mp (by decide +kernel)⟩
  · exact QueueId.isNumbered_allocated (by decide)
  · exact QueueId.isNumbered_ofDecimal 0 false 5 (-1)
  · exact ⟨_, rfl, 0, 0, by decide⟩
  · exact ⟨_, rfl, by decide, by decide, by decide⟩

/-- With a comma in a label, a pair can be read in two ways. -/
example : (pair (label "a, 'b") (label "c")).render =
    (pair (label "a") (label "b, 'c")).render := by
  decide

end Value

end Parley
