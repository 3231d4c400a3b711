-- Where a branch can be in the code of a pattern, and with which captures open. No
-- instruction of the code but the last one leads out of it, and each closes or opens only
-- the capture that it belongs to.
import Keymap.Proofs.Layout
import Keymap.Proofs.Parts

namespace Keymap

/-! ## Codes that are placed -/

section

variable {program : Program} {addresses : List (String × Nat)} {a : Nat}
  {code front middle back : List Slot}

theorem Program.lt_size {x : Nat} {i : Inst} (h : program.get? x = some i) : x < program.size :=
  (Array.getElem?_eq_some_iff.mp h).1

theorem Placed.le_size (h : Placed program addresses a code) (ha : a ≤ program.size) :
    a + code.length ≤ program.size := by
  induction code generalizing a with
  | nil => exact ha
  | cons s rest ih =>
    obtain ⟨⟨i, -, hi⟩, hrest⟩ := h
    have := ih hrest (Program.lt_size hi)
    rw [List.length_cons]
    omega

theorem Placed.of_append (h : Placed program addresses a code)
    (hcode : code = front ++ middle ++ back) :
    Placed program addresses (a + front.length) middle := by
  rw [hcode, placed_append, placed_append] at h
  exact h.1.2

theorem RuleLayout.placed {rules : List (String × Pattern)} {name : String} {body : Pattern}
    (hl : RuleLayout program addresses rules) (hr : (name, body) ∈ rules)
    (ha : addresses.lookup name = some a) :
    Placed program addresses a body.code ∧ program.get? (a + body.code.length) = some .ret := by
  obtain ⟨address, ha', hp⟩ := hl.rule name body hr
  obtain rfl : a = address := Option.some.inj (ha.symm.trans ha')
  unfold ruleCode at hp
  rw [placed_append, placed_inst] at hp
  exact ⟨hp.1, hp.2.1⟩

end

namespace Pattern

/-! ## Places in a code -/

/-- Where the capture begins that a pattern opens around the one that it is made of. -/
def opens (a : Nat) : Pattern → List Nat
  | .capture _ _ => [a]
  | _ => []

/-- A branch at `x` is in the code that begins at `a`, or just behind it. The captures that
it has opened there begin at `ys`, the innermost first. -/
inductive Inside : Pattern → Nat → Nat → List Nat → Prop
  | start (p : Pattern) (a : Nat) : Inside p a a []
  | stop (p : Pattern) (a : Nat) : Inside p a (a + p.code.length) []
  | child {p q : Pattern} {a k x : Nat} {ys : List Nat} (hc : Child p k q)
    (hq : Inside q (a + k) x ys) : Inside p a x (ys ++ p.opens a)

/-- After the instruction at `x` a branch is still in the code that begins at `a`, or has been
called from there. A capture that it closes is the one that begins at the head of `ys`. -/
inductive Stays (addresses : List (String × Nat)) (p : Pattern) (a x : Nat) (ys : List Nat) :
    Inst → Prop
  | consume {m : Matcher} (h : Inside p a (x + 1) ys) : Stays addresses p a x ys (.consume m)
  | jump {offset : Int} (h : Inside p a (Branch.target x offset) ys) :
    Stays addresses p a x ys (.jump offset)
  | split {first second : Int} (h : Inside p a (Branch.target x first) ys)
    (h' : Inside p a (Branch.target x second) ys) : Stays addresses p a x ys (.split first second)
  | capStart (h : Inside p a (x + 1) (x :: ys)) : Stays addresses p a x ys .capStart
  | capEnd {q : Pattern} {template : String} {y : Nat} {rest : List Nat}
    (hq : Part p a (.capture q template) y) (hx : x = y + 1 + q.code.length)
    (hys : ys = y :: rest) (h : Inside p a (x + 1) rest) :
    Stays addresses p a x ys (.capEnd template)
  | done : Stays addresses p a x ys .done
  | call {name : String} {address : Nat} (ha : addresses.lookup name = some address)
    (h : Inside p a (x + 1) ys) : Stays addresses p a x ys (.call address)

variable {program : Program} {addresses : List (String × Nat)} {p q r : Pattern}
  {a k x n n' : Nat} {ys : List Nat}

theorem Child.placed (h : Child p k q) (hp : Placed program addresses a p.code) :
    Placed program addresses (a + k) q.code := by
  obtain ⟨front, back, hcode, rfl⟩ := h.exists_append
  exact hp.of_append hcode

theorem Part.placed (h : Part p a r n) (hp : Placed program addresses a p.code) :
    Placed program addresses n r.code := by
  obtain ⟨front, back, hcode, rfl⟩ := h.exists_append
  exact hp.of_append hcode

theorem Inside.le (h : Inside p a x ys) : a ≤ x ∧ x ≤ a + p.code.length := by
  induction h with
  | start p a => exact ⟨Nat.le_refl a, Nat.le_add_right ..⟩
  | stop p a => exact ⟨Nat.le_add_right .., Nat.le_refl _⟩
  | child hc _ ih =>
    have := hc.length_le
    omega

/-- Behind its code the pattern has no capture open. -/
theorem Inside.eq_nil (h : Inside p a (a + p.code.length) ys) : ys = [] := by
  generalize hx : a + p.code.length = x at h
  induction h with
  | start p a => rfl
  | stop p a => rfl
  | @child p q a k x ys hc hq ih =>
    have hle := hq.le
    have hlen := hc.length_le
    cases p with
    | capture p template =>
      -- The end of the capture stands between the code of `p` and the place behind.
      cases hc
      simp only [code_capture, List.length_append, List.length_cons, List.length_nil] at hx
      omega
    | _ =>
      rw [ih (by omega)]
      rfl

/-! ## One instruction -/

/-- What stays in the code of a child stays in the code. -/
theorem Stays.child {i : Inst} (hc : Child p k q) (h : Stays addresses q (a + k) x ys i) :
    Stays addresses p a x (ys ++ p.opens a) i := by
  cases h with
  | consume h => exact .consume (.child hc h)
  | jump h => exact .jump (.child hc h)
  | split h h' => exact .split (.child hc h) (.child hc h')
  | capStart h => exact .capStart (.child hc h)
  | capEnd hq hx hys h =>
    subst hys
    exact .capEnd (.child hc hq) hx rfl (.child hc h)
  | done => exact .done
  | call ha h => exact .call ha (.child hc h)

theorem exists_stays_of_jumpsTo (hj : JumpsTo program x n) (h : Inside p a n ys) :
    ∃ i, program.get? x = some i ∧ Stays addresses p a x ys i := by
  obtain ⟨offset, hi, rfl⟩ := hj
  exact ⟨_, hi, .jump h⟩

theorem exists_stays_of_splitsTo (hs : SplitsTo program x n n') (h : Inside p a n ys)
    (h' : Inside p a n' ys) : ∃ i, program.get? x = some i ∧ Stays addresses p a x ys i := by
  obtain ⟨first, second, hi, rfl, rfl⟩ := hs
  exact ⟨_, hi, .split h h'⟩

/-- The first instruction of a code stays in it. -/
theorem exists_stays_start (p : Pattern) (hp : Placed program addresses a p.code) :
    ∃ i, program.get? a = some i ∧ Stays addresses p a a [] i := by
  induction p generalizing a with
  | event m =>
    rw [code_event, placed_inst] at hp
    exact ⟨_, hp.1, .consume (.stop _ _)⟩
  | seq p q ihp ihq =>
    have hc := Child.seqFirst p q
    obtain ⟨i, hi, hs⟩ := ihp (hc.placed hp)
    exact ⟨i, hi, hs.child hc⟩
  | alt p q ihp ihq =>
    have hfirst := Inside.child (.altFirst p q) (.start p (a + 1))
    have hsecond := Inside.child (.altSecond p q) (.start q (a + (p.code.length + 2)))
    exact exists_stays_of_splitsTo hp.alt.1 hfirst hsecond
  | star p ih =>
    have hbody := Inside.child (.star p) (.start p (a + 1))
    exact exists_stays_of_splitsTo hp.star.1 hbody (.stop _ _)
  | plus p ih =>
    have hc := Child.plus p
    obtain ⟨i, hi, hs⟩ := ih (hc.placed hp)
    exact ⟨i, hi, hs.child hc⟩
  | opt p ih =>
    have hbody := Inside.child (.opt p) (.start p (a + 1))
    exact exists_stays_of_splitsTo hp.opt.1 hbody (.stop _ _)
  | capture p template ih =>
    have hbody := Inside.child (.capture p template) (.start p (a + 1))
    exact ⟨_, hp.capture.1, .capStart hbody⟩
  | done =>
    rw [code_done, placed_inst] at hp
    exact ⟨_, hp.1, .done⟩
  | rule name =>
    rw [code_rule, placed_callRule] at hp
    obtain ⟨⟨address, ha, hi⟩, -⟩ := hp
    exact ⟨_, hi, .call ha (.stop _ _)⟩

/-- What comes behind the code of a child is the end of the code, or stays in it. -/
theorem stop_or_stays (hp : Placed program addresses a p.code) (hc : Child p k q) :
    a + k + q.code.length = a + p.code.length ∧ p.opens a = []
      ∨ ∃ i, program.get? (a + k + q.code.length) = some i
        ∧ Stays addresses p a (a + k + q.code.length) (p.opens a) i := by
  cases hc with
  | seqFirst _ second =>
    right
    have hsecond := Child.seqSecond q second
    obtain ⟨i, hi, hs⟩ := exists_stays_start second (hsecond.placed hp)
    exact ⟨i, hi, hs.child hsecond⟩
  | seqSecond =>
    left
    rw [code_seq, List.length_append, Nat.add_assoc]
    exact ⟨rfl, rfl⟩
  | altFirst =>
    right
    exact exists_stays_of_jumpsTo hp.alt.2.2.1 (.stop _ _)
  | altSecond first =>
    left
    exact ⟨end_alt a first q, rfl⟩
  | star =>
    right
    exact exists_stays_of_jumpsTo hp.star.2.2 (.start _ _)
  | plus =>
    right
    exact exists_stays_of_splitsTo hp.plus.2 (.start _ _) (.stop _ _)
  | opt =>
    left
    exact ⟨end_opt a q, rfl⟩
  | capture =>
    right
    refine ⟨_, hp.capture.2.2, .capEnd (.self _ _) rfl rfl ?_⟩
    rw [end_capture]
    exact .stop _ _

/-- A branch in the code of a pattern is behind its end, or its instruction stays in it. -/
theorem Inside.stop_or_stays (h : Inside p a x ys) (hp : Placed program addresses a p.code) :
    x = a + p.code.length ∧ ys = []
      ∨ ∃ i, program.get? x = some i ∧ Stays addresses p a x ys i := by
  induction h with
  | start p a => exact .inr (exists_stays_start p hp)
  | stop p a => exact .inl ⟨rfl, rfl⟩
  | child hc hq ih =>
    rcases ih (hc.placed hp) with ⟨rfl, rfl⟩ | ⟨i, hi, hs⟩
    · exact Pattern.stop_or_stays hp hc
    · exact .inr ⟨i, hi, hs.child hc⟩

end Pattern

end Keymap
