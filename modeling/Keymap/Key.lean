-- The keys of a keyboard and the buttons of a mouse, and what is held
-- down with them. Nothing here knows how keys are written.

namespace Keymap

/-! ## Modifiers -/

/-- A key that is held down while another one is pressed. -/
inductive Modifier where
  | shift
  | ctrl
  | alt
  | metaKey
deriving DecidableEq

/-- The modifiers that are held down. -/
structure Modifiers where
  shift : Bool := false
  ctrl : Bool := false
  alt : Bool := false
  metaKey : Bool := false
deriving DecidableEq

namespace Modifiers

/-- Nothing is held down. -/
def empty : Modifiers := {}

/-- Whether `m` is held down. -/
def has (ms : Modifiers) : Modifier → Bool
  | .shift => ms.shift
  | .ctrl => ms.ctrl
  | .alt => ms.alt
  | .metaKey => ms.metaKey

/-- Holds `m` down too. -/
def add (ms : Modifiers) : Modifier → Modifiers
  | .shift => { ms with shift := true }
  | .ctrl => { ms with ctrl := true }
  | .alt => { ms with alt := true }
  | .metaKey => { ms with metaKey := true }

/-- Lets `m` go. -/
def drop (ms : Modifiers) : Modifier → Modifiers
  | .shift => { ms with shift := false }
  | .ctrl => { ms with ctrl := false }
  | .alt => { ms with alt := false }
  | .metaKey => { ms with metaKey := false }

@[simp] theorem has_add (ms : Modifiers) (m n : Modifier) :
    (ms.add m).has n = (decide (n = m) || ms.has n) := by
  cases m <;> cases n <;> simp [add, has]

@[simp] theorem has_drop (ms : Modifiers) (m n : Modifier) :
    (ms.drop m).has n = (!decide (n = m) && ms.has n) := by
  cases m <;> cases n <;> simp [drop, has]

@[simp] theorem has_empty (m : Modifier) : empty.has m = false := by
  cases m <;> rfl

/-- Modifiers are the same when the same keys are held down. -/
theorem ext_has {ms ns : Modifiers} (h : ∀ m, ms.has m = ns.has m) : ms = ns := by
  obtain ⟨a, b, c, d⟩ := ms
  obtain ⟨a', b', c', d'⟩ := ns
  have h1 := h .shift
  have h2 := h .ctrl
  have h3 := h .alt
  have h4 := h .metaKey
  simp only [has] at h1 h2 h3 h4
  simp [h1, h2, h3, h4]

theorem add_of_has {ms : Modifiers} {m : Modifier} (h : ms.has m = true) : ms.add m = ms := by
  apply ext_has
  intro n
  by_cases hn : n = m
  · simp [hn, h]
  · simp [hn]

theorem drop_of_not_has {ms : Modifiers} {m : Modifier} (h : ms.has m = false) :
    ms.drop m = ms := by
  apply ext_has
  intro n
  by_cases hn : n = m
  · simp [hn, h]
  · simp [hn]

theorem add_drop (ms : Modifiers) (m : Modifier) : (ms.drop m).add m = ms.add m := by
  apply ext_has
  intro n
  by_cases hn : n = m
  · simp [hn]
  · simp [hn]

theorem drop_add (ms : Modifiers) (m : Modifier) : (ms.add m).drop m = ms.drop m := by
  apply ext_has
  intro n
  by_cases hn : n = m
  · simp [hn]
  · simp [hn]

end Modifiers

/-! ## Keys -/

/-- A key that stands for no character and has a name of its own. -/
inductive NamedKey where
  | enter
  | backspace
  | tab
  | backtab
  | escape
  | delete
  | insert
  | up
  | down
  | left
  | right
  | upLeft
  | upRight
  | downLeft
  | downRight
  | center
  | home
  | endKey
  | pageUp
  | pageDown
  | clear
  | exit
  | cancel
  | pause
  | print
deriving DecidableEq

/-- What a key stands for. -/
inductive KeyCode where
  /-- A character key. With Ctrl, a letter is reported in lower case. -/
  | char (c : Char)
  | named (k : NamedKey)
  /-- The function key with this number. -/
  | function (n : Nat)
deriving DecidableEq

/-- One press of a key, with what was held down. -/
structure KeyPress where
  code : KeyCode
  mods : Modifiers
deriving DecidableEq

/-- A character typed with nothing held down. -/
def KeyPress.typed (c : Char) : KeyPress := ⟨.char c, .empty⟩

/-! ## Mouse buttons -/

/-- A mouse button, or a direction of the wheel. -/
inductive MouseButton where
  | left
  | right
  | middle
  | thumbNext
  | thumbPrev
  | button6
  | button7
  | button8
  | wheelUp
  | wheelDown
  | wheelLeft
  | wheelRight
  /-- A motion or a release: no button is held. -/
  | noButton
deriving DecidableEq

/-- A mouse action at a cell of the screen. -/
structure MouseAction where
  button : MouseButton
  mods : Modifiers
  column : Nat
  row : Nat
deriving DecidableEq

end Keymap
