import GuruPractice.Text.PrefixCode

/-!
# Storage paths

`uploadImage` names an object by interpolating the optional string `file_name`, as in
`"images/\(file_name).png"`, so that the name contains the debug description of the optional:
`Optional("…")` with the characters of the string escaped, or `nil`. `child` then brings the path
into its standard form. This file shows that nothing is lost: different file names, and the absence
of one, give different paths.

A text is a list of Unicode scalars.

## Main definitions

* `FireStorageBasic.escaped`, `FireStorageBasic.debugDescription`, `FireStorageBasic.describing`:
  the description of an optional string.
* `FireStorageBasic.standardizedPathForString`, `FireStorageBasic.child`.
* `FireStorageBasic.PathComponent`, `FireStorageBasic.imagePath`.

## Main results

* `FireStorageBasic.imagePath_injective`.
-/

namespace GuruPractice.FireStorageBasic

open Text

/-! ### The description of an optional string -/

/-- The low four bits of a number, as a hexadecimal digit. -/
def lowNibbleAsHex (v : ℕ) : Char :=
  if v % 16 < 10 then Char.ofNat (v % 16 + 48) else Char.ofNat (v % 16 + 65 - 10)

/-- `Unicode.Scalar.escaped(asASCII: false)`. -/
def escaped (c : Char) : List Char :=
  if c = '\\' then ['\\', '\\']
  else if c = '\x27' then ['\\', '\x27']
  else if c = '\x22' then ['\\', '\x22']
  else if ' ' ≤ c ∧ c ≤ '~' then [c]
  else if c = '\x00' then ['\\', '0']
  else if c = '\n' then ['\\', 'n']
  else if c = '\r' then ['\\', 'r']
  else if c = '\t' then ['\\', 't']
  else if c.toNat < 128 then
    ['\\', 'u', '\x7b', lowNibbleAsHex (c.toNat / 16), lowNibbleAsHex c.toNat, '\x7d']
  else [c]

/-- `String.debugDescription`. -/
def debugDescription (s : List Char) : List Char := '\x22' :: (s.flatMap escaped ++ ['\x22'])

/-- The interpolation of an optional string. -/
def describing : Option (List Char) → List Char
  | some s => ['O', 'p', 't', 'i', 'o', 'n', 'a', 'l', '('] ++ (debugDescription s ++ [')'])
  | none => ['n', 'i', 'l']

/-! ### Reading escaped scalars -/

/-- The value of a hexadecimal digit. -/
def hexValue (c : Char) : ℕ := if c.toNat < 58 then c.toNat - 48 else c.toNat - 65 + 10

/-- Read what follows a backslash. -/
def readEscape : List Char → Option (Char × List Char)
  | 'u' :: '\x7b' :: high :: low :: '\x7d' :: rest =>
    some (Char.ofNat (16 * hexValue high + hexValue low), rest)
  | '0' :: rest => some ('\x00', rest)
  | 'n' :: rest => some ('\n', rest)
  | 'r' :: rest => some ('\r', rest)
  | 't' :: rest => some ('\t', rest)
  | c :: rest => some (c, rest)
  | [] => none

/-- Read one escaped scalar. -/
def readEscaped : List Char → Option (Char × List Char)
  | c :: rest => if c = '\\' then readEscape rest else some (c, rest)
  | [] => none

theorem lowNibbleAsHex_mod (v : ℕ) : lowNibbleAsHex v = lowNibbleAsHex (v % 16) := by
  rw [lowNibbleAsHex, lowNibbleAsHex, Nat.mod_mod]

theorem hexValue_lowNibbleAsHex (v : ℕ) : hexValue (lowNibbleAsHex v) = v % 16 := by
  have hall : ∀ n < 16, hexValue (lowNibbleAsHex n) = n := by decide
  rw [lowNibbleAsHex_mod, hall _ (Nat.mod_lt _ (by decide))]

/-- The ways to write a scalar: as it is, as a backslash and one more scalar, or by its number. -/
theorem escaped_cases (c : Char) :
    (c ≠ '\\' ∧ escaped c = [c]) ∨
    (∃ d, d ≠ '/' ∧ escaped c = ['\\', d] ∧ ∀ rest, readEscape (d :: rest) = some (c, rest)) ∨
    (c.toNat < 128 ∧ escaped c =
      ['\\', 'u', '\x7b', lowNibbleAsHex (c.toNat / 16), lowNibbleAsHex c.toNat, '\x7d']) := by
  by_cases hbackslash : c = '\\'
  · subst hbackslash
    exact Or.inr (Or.inl ⟨'\\', by decide, rfl, fun _ => rfl⟩)
  rw [escaped, if_neg hbackslash]
  by_cases hapostrophe : c = '\x27'
  · subst hapostrophe
    exact Or.inr (Or.inl ⟨'\x27', by decide, rfl, fun _ => rfl⟩)
  rw [if_neg hapostrophe]
  by_cases hquote : c = '\x22'
  · subst hquote
    exact Or.inr (Or.inl ⟨'\x22', by decide, rfl, fun _ => rfl⟩)
  rw [if_neg hquote]
  by_cases hprintable : ' ' ≤ c ∧ c ≤ '~'
  · rw [if_pos hprintable]
    exact Or.inl ⟨hbackslash, rfl⟩
  rw [if_neg hprintable]
  by_cases hnull : c = '\x00'
  · subst hnull
    exact Or.inr (Or.inl ⟨'0', by decide, rfl, fun _ => rfl⟩)
  rw [if_neg hnull]
  by_cases hnewline : c = '\n'
  · subst hnewline
    exact Or.inr (Or.inl ⟨'n', by decide, rfl, fun _ => rfl⟩)
  rw [if_neg hnewline]
  by_cases hreturn : c = '\r'
  · subst hreturn
    exact Or.inr (Or.inl ⟨'r', by decide, rfl, fun _ => rfl⟩)
  rw [if_neg hreturn]
  by_cases htab : c = '\t'
  · subst htab
    exact Or.inr (Or.inl ⟨'t', by decide, rfl, fun _ => rfl⟩)
  rw [if_neg htab]
  by_cases hascii : c.toNat < 128
  · rw [if_pos hascii]
    exact Or.inr (Or.inr ⟨hascii, rfl⟩)
  · rw [if_neg hascii]
    exact Or.inl ⟨hbackslash, rfl⟩

theorem reads_escaped : Reads escaped readEscaped := by
  intro c rest
  rcases escaped_cases c with ⟨hc, h⟩ | ⟨d, -, h, hread⟩ | ⟨hlt, h⟩
  · rw [h]
    exact if_neg hc
  · rw [h]
    exact hread rest
  · have hvalue : 16 * (c.toNat / 16 % 16) + c.toNat % 16 = c.toNat := by omega
    rw [h]
    change some (Char.ofNat (16 * hexValue _ + hexValue _), rest) = _
    rw [hexValue_lowNibbleAsHex, hexValue_lowNibbleAsHex, hvalue, Char.ofNat_toNat]

theorem escaped_ne_nil (c : Char) : escaped c ≠ [] := by
  rcases escaped_cases c with ⟨-, h⟩ | ⟨d, -, h, -⟩ | ⟨-, h⟩ <;> rw [h] <;>
    exact List.cons_ne_nil _ _

theorem lowNibbleAsHex_ne_slash (v : ℕ) : lowNibbleAsHex v ≠ '/' := by
  have hall : ∀ n < 16, lowNibbleAsHex n ≠ '/' := by decide
  rw [lowNibbleAsHex_mod]
  exact hall _ (Nat.mod_lt _ (by decide))

/-- No slash is introduced by escaping. -/
theorem slash_notMem_escaped {c : Char} (hc : c ≠ '/') : '/' ∉ escaped c := by
  rcases escaped_cases c with ⟨-, h⟩ | ⟨d, hd, h, -⟩ | ⟨-, h⟩
  · simp [h, hc.symm]
  · simp [h, hd.symm]
  · simp [h, (lowNibbleAsHex_ne_slash _).symm]

/-- Different optional strings have different descriptions. -/
theorem describing_injective : Function.Injective describing := by
  rintro (- | s) (- | t) h
  · rfl
  · exact absurd (congrArg List.head? h) (by simp [describing])
  · exact absurd (congrArg List.head? h) (by simp [describing])
  · have hdesc := List.append_cancel_right (List.append_cancel_left h)
    have hflat := List.append_cancel_right (List.cons.inj hdesc).2
    rw [reads_escaped.flatMap_injective escaped_ne_nil hflat]

/-! ### Paths -/

/-- A component of a path, such as a file name. -/
structure PathComponent where
  chars : List Char
  slash_notMem : '/' ∉ chars
  deriving DecidableEq

/-- Remove leading and trailing slashes, and compress multiple ones. -/
def standardizedPathForString (string : List Char) : List Char :=
  ['/'].intercalate ((string.splitOn '/').filter fun component => component ≠ [])

/-- The path of a child of the root. -/
def child (path : List Char) : List Char := standardizedPathForString path

/-- The path of the object that `uploadImage` writes. -/
def imagePath (file_name : Option PathComponent) : List Char :=
  child (['i', 'm', 'a', 'g', 'e', 's', '/'] ++
    (describing (file_name.map PathComponent.chars) ++ ['.', 'p', 'n', 'g']))

theorem slash_notMem_describing (file_name : Option PathComponent) :
    '/' ∉ describing (file_name.map PathComponent.chars) := by
  cases file_name with
  | none => decide
  | some name =>
    have hflat : '/' ∉ name.chars.flatMap escaped := by
      intro h
      obtain ⟨c, hc, hslash⟩ := List.mem_flatMap.mp h
      refine slash_notMem_escaped ?_ hslash
      rintro rfl
      exact name.slash_notMem hc
    simp [describing, debugDescription, hflat]

/-- A path without empty components is in standard form. -/
theorem standardizedPathForString_eq_self {string : List Char}
    (h : ∀ component ∈ string.splitOn '/', component ≠ []) :
    standardizedPathForString string = string := by
  have hfilter : (string.splitOn '/').filter (fun component => component ≠ []) =
      string.splitOn '/' := List.filter_eq_self.mpr fun component hc => by simp [h component hc]
  rw [standardizedPathForString, hfilter, List.intercalate_splitOn]

/-- The path of an image is in standard form. -/
theorem imagePath_eq (file_name : Option PathComponent) :
    imagePath file_name = ['i', 'm', 'a', 'g', 'e', 's', '/'] ++
      (describing (file_name.map PathComponent.chars) ++ ['.', 'p', 'n', 'g']) := by
  refine standardizedPathForString_eq_self fun component hc => ?_
  have hname : '/' ∉ describing (file_name.map PathComponent.chars) ++ ['.', 'p', 'n', 'g'] := by
    simp [slash_notMem_describing file_name]
  have hsplit : (['i', 'm', 'a', 'g', 'e', 's', '/'] ++
      (describing (file_name.map PathComponent.chars) ++ ['.', 'p', 'n', 'g'])).splitOn '/' =
        [['i', 'm', 'a', 'g', 'e', 's'],
          describing (file_name.map PathComponent.chars) ++ ['.', 'p', 'n', 'g']] := by
    have himages : '/' ∉ ['i', 'm', 'a', 'g', 'e', 's'] := by decide
    rw [← List.splitOn_eq_singleton hname]
    exact List.splitOn_append_cons_self_of_not_mem himages _
  rw [hsplit] at hc
  rcases List.mem_cons.mp hc with rfl | hc
  · simp
  · rw [List.mem_singleton.mp hc]
    simp

/-- **Different names have different paths.** -/
theorem imagePath_injective : Function.Injective imagePath := by
  intro name name' h
  rw [imagePath_eq, imagePath_eq] at h
  have hdesc := describing_injective (List.append_cancel_right (List.append_cancel_left h))
  refine Option.map_injective (fun a b hab => ?_) hdesc
  cases a
  cases b
  cases hab
  rfl

end GuruPractice.FireStorageBasic
