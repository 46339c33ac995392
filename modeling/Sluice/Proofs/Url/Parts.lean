import Mathlib.Data.List.DropRight
import Sluice.Proofs.Text.Integer
import Sluice.Url

/-!
Addresses put together from a scheme, the part that names the host, and a path, and what a library of
addresses makes of them. The path has a say in whether an address is read, for it may be too long or
hold a character that cannot be printed, but none in what its scheme and its authority are read as; and
an absolute path as a reference takes the place of the path. The library in use keeps these laws.
-/

namespace Sluice.Url

/-- An address with a host and a path behind it, and with no query and no fragment. -/
structure Address where
  scheme : List Char
  authority : List Char
  path : List Char
  scheme_begins : ∃ c rest, scheme = c :: rest ∧ isLetter c = true
  scheme_chars : ∀ c ∈ scheme, isSchemeChar c = true
  authority_chars : ∀ c ∈ authority, endsAuthority c = false
  names_host : (cutHost (cutUserinfo authority).2).1 ≠ []
  path_begins : path = [] ∨ ∃ rest, path = '/' :: rest
  path_chars : ∀ c ∈ path, c ≠ '?' ∧ c ≠ '#'

def isPrintable (c : Char) : Bool :=
  !(c.toNat < 0x20 || c.toNat == 0x7f)

theorem cutScheme_append {scheme rest : List Char}
    (hbegins : ∃ c more, scheme = c :: more ∧ isLetter c = true)
    (hchars : ∀ c ∈ scheme, isSchemeChar c = true) :
    cutScheme (scheme ++ ':' :: rest) = (scheme, rest) := by
  have hdrop : (scheme ++ ':' :: rest).dropWhile isSchemeChar = ':' :: rest := by
    rw [List.dropWhile_append_of_pos hchars]
    rfl
  have htake : (scheme ++ ':' :: rest).takeWhile isSchemeChar = scheme := by
    rw [List.takeWhile_append_of_pos hchars, List.takeWhile_cons_of_neg (by decide),
      List.append_nil]
  obtain ⟨c, more, rfl, hc⟩ := hbegins
  have hne : c ≠ ':' := by
    rintro rfl
    exact absurd hc (by decide)
  rw [List.cons_append] at hdrop htake ⊢
  simp only [cutScheme, hc, hdrop, htake, ↓reduceIte]

theorem cutAuthority_append {authority path : List Char}
    (hauthority : ∀ c ∈ authority, endsAuthority c = false)
    (hpath : path = [] ∨ ∃ rest, path = '/' :: rest) :
    cutAuthority ('/' :: '/' :: (authority ++ path)) = (authority, path) := by
  have hopen : ∀ c ∈ authority, (!endsAuthority c) = true := fun c hc => by
    rw [hauthority c hc, Bool.not_false]
  rw [cutAuthority, List.takeWhile_append_of_pos hopen, List.dropWhile_append_of_pos hopen]
  rcases hpath with rfl | ⟨rest, rfl⟩
  · simp
  · rw [List.takeWhile_cons_of_neg (by decide), List.dropWhile_cons_of_neg (by decide),
      List.append_nil]

namespace Address

def text (a : Address) : String :=
  String.ofList (a.scheme ++ ':' :: '/' :: '/' :: (a.authority ++ a.path))

theorem text_ne_empty (a : Address) : a.text ≠ "" := by
  simp [text]

/-- What the scheme and the part that names the host say. -/
def front (a : Address) : Except UrlError Parts := do
  let (userinfo, hostPort) := cutUserinfo a.authority
  let (host, portText) := cutHost hostPort
  let host ← readHost host
  let port ← readPort portText
  let scheme := String.ofList (a.scheme.map Char.toLower)
  pure {
    scheme
    userinfo := String.ofList (Percent.encode isUserinfoChar userinfo)
    host := String.ofList host
    port := if port = defaultPort scheme then none else port
    path := "" }

/-- An address is read if it is not too long, has no characters that cannot be printed and its front is
in order. -/
theorem read_text {a : Address} {b : Parts} :
    read a.text = .ok b ↔
      a.text.toList.length ≤ maxLength ∧ (∀ c ∈ a.text.toList, isPrintable c = true) ∧
        a.front.map (fun p => { p with path := String.ofList a.path }) = .ok b := by
  have hscheme : a.scheme.isEmpty = false := by
    obtain ⟨c, rest, h, -⟩ := a.scheme_begins
    rw [h]
    rfl
  have hcut : cutScheme a.text.toList = (a.scheme, '/' :: '/' :: (a.authority ++ a.path)) := by
    rw [text, String.toList_ofList]
    exact cutScheme_append a.scheme_begins a.scheme_chars
  have hcut' := cutAuthority_append a.authority_chars a.path_begins
  have hprint : a.text.toList.findIdx? (fun c => c.toNat < 0x20 || c.toNat == 0x7f) = none ↔
      ∀ c ∈ a.text.toList, isPrintable c = true := by
    rw [List.findIdx?_eq_none_iff]
    simp [isPrintable]
  rw [← hprint, read]
  simp only [hcut, hcut', hscheme, Bool.false_and, Bool.false_eq_true, ↓reduceIte]
  by_cases hlength : maxLength < a.text.toList.length
  · simp only [hlength, ↓reduceIte]
    exact iff_of_false nofun fun h => Nat.not_le.mpr hlength h.1
  · simp only [hlength, ↓reduceIte]
    cases a.text.toList.findIdx? fun c => c.toNat < 0x20 || c.toNat == 0x7f with
    | some i => exact iff_of_false nofun fun h => nomatch h.2.1
    | none =>
      simp only [front]
      cases readHost (cutHost (cutUserinfo a.authority).2).1 with
      | error e => exact iff_of_false nofun fun h => nomatch h.2.2
      | ok host =>
        cases readPort (cutHost (cutUserinfo a.authority).2).2 with
        | error e => exact iff_of_false nofun fun h => nomatch h.2.2
        | ok port => exact ⟨fun h => ⟨Nat.le_of_not_lt hlength, trivial, h⟩, fun h => h.2.2⟩

def bare (a : Address) : Address :=
  { a with path := [], path_begins := .inl rfl, path_chars := List.forall_mem_nil _ }

/-- What is read of an address with a path is its front, with the path as it stands. -/
theorem exists_front {a : Address} {b : Parts} (h : read a.text = .ok b) :
    ∃ p, a.front = .ok p ∧ b = { p with path := String.ofList a.path } := by
  obtain ⟨-, -, hfront⟩ := read_text.mp h
  cases hp : a.front with
  | error e =>
    rw [hp] at hfront
    cases hfront
  | ok p =>
    rw [hp] at hfront
    exact ⟨p, rfl, (Except.ok.inj hfront).symm⟩

/-- An address is read as it is without its path. -/
theorem read_bare {a : Address} {b : Parts} (h : read a.text = .ok b) :
    read a.bare.text = .ok { b with path := "" } := by
  obtain ⟨hlength, hprint, -⟩ := read_text.mp h
  obtain ⟨p, hfront, rfl⟩ := exists_front h
  have hbegins : a.bare.text.toList <+: a.text.toList := by
    rw [text, text, String.toList_ofList, String.toList_ofList]
    exact ⟨a.path, by simp [bare]⟩
  refine read_text.mpr ⟨hbegins.length_le.trans hlength,
    fun c hc => hprint c (hbegins.subset hc), ?_⟩
  change a.front.map _ = _
  rw [hfront]
  rfl

def trimmedPath (a : Address) : List Char :=
  a.path.rdropWhile (· == '/')

theorem trimmedPath_eq_nil {a : Address} : a.trimmedPath = [] ↔ ∀ c ∈ a.path, c = '/' := by
  rw [trimmedPath, List.rdropWhile_eq_nil_iff]
  simp

end Address

theorem utf8_encodeChar_ne_nil (c : Char) : Utf8.encodeChar c ≠ [] := by
  rw [Utf8.encodeChar]
  split_ifs <;> exact List.cons_ne_nil _ _

theorem percent_encode_ne_nil {allowed : Char → Bool} {cs : List Char} (h : cs ≠ []) :
    Percent.encode allowed cs ≠ [] := by
  have hchar (c : Char) : Percent.encodeChar allowed c ≠ [] := by
    rw [Percent.encodeChar]
    split
    · exact List.cons_ne_nil _ _
    · obtain ⟨b, bs, hb⟩ := List.exists_cons_of_ne_nil (utf8_encodeChar_ne_nil c)
      simp [hb]
  unfold Percent.encode
  split
  · exact absurd rfl h
  · split <;> simp [hchar]
  · simp [hchar]

theorem readHost_ne_nil {host host' : List Char} (h : host ≠ [])
    (hread : readHost host = .ok host') : host' ≠ [] := by
  unfold readHost at hread
  rw [if_neg (by simpa using h)] at hread
  split at hread
  · split at hread
    · cases hread
      exact h
    · cases hread
  split at hread
  · dsimp only at hread
    split at hread
    · cases hread
      exact h
    · cases hread
  split at hread
  · cases hread
    exact percent_encode_ne_nil (by simpa using h)
  · cases hread

/-- The scheme of an address and its host are not lost. -/
theorem Address.nonempty_of_front {a : Address} {p : Parts} (h : a.front = .ok p) :
    p.scheme ≠ "" ∧ p.host ≠ "" := by
  have hscheme : String.ofList (a.scheme.map Char.toLower) ≠ "" := by
    obtain ⟨c, rest, hcons, -⟩ := a.scheme_begins
    simp [hcons]
  simp only [front] at h
  cases hhost : readHost (cutHost (cutUserinfo a.authority).2).1 with
  | error e =>
    rw [hhost] at h
    cases h
  | ok host =>
    rw [hhost] at h
    cases hport : readPort (cutHost (cutUserinfo a.authority).2).2 with
    | error e =>
      rw [hport] at h
      cases h
    | ok port =>
      rw [hport] at h
      cases h
      exact ⟨hscheme, by simpa using readHost_ne_nil a.names_host hhost⟩

theorem percent_encode_of_allowed {allowed : Char → Bool} {cs : List Char}
    (h : ∀ c ∈ cs, allowed c = true ∧ c ≠ '%') : Percent.encode allowed cs = cs := by
  induction cs with
  | nil => rfl
  | cons c cs ih =>
    obtain ⟨⟨hallowed, hne⟩, hcs⟩ := List.forall_mem_cons.mp h
    have hchar : Percent.encodeChar allowed c = [c] := if_pos hallowed
    rw [Percent.encode.eq_3 allowed c cs fun _ _ _ hc _ => hne hc, hchar, ih hcs,
      List.singleton_append]

def isSmall (c : Char) : Bool :=
  isUnreserved c && c.toLower == c

theorem toLower_of_isSmall {c : Char} (h : isSmall c = true) : c.toLower = c :=
  beq_iff_eq.mp (Bool.and_eq_true_iff.mp h).2

theorem isHostChar_of_isSmall {c : Char} (h : isSmall c = true) : isHostChar c = true := by
  rw [isHostChar, (Bool.and_eq_true_iff.mp h).1, Bool.true_or]

theorem ne_of_isSmall {c d : Char} (h : isSmall c = true) (hd : isSmall d = false) : c ≠ d := by
  rintro rfl
  exact nomatch h.symm.trans hd

def portText : Option Nat → List Char
  | some n => ':' :: Decimal.digitsOf n
  | none => []

theorem cutHost_append {host : List Char} (h : ∀ c ∈ host, isSmall c = true) (port : Option Nat) :
    cutHost (host ++ portText port) = (host, (portText port).drop 1) := by
  have hplain : ∀ c ∈ host, (c != ':') = true := fun c hc =>
    bne_iff_ne.mpr (ne_of_isSmall (h c hc) rfl)
  have htake : (host ++ portText port).takeWhile (· != ':') = host := by
    rw [List.takeWhile_append_of_pos hplain]
    cases port <;> simp [portText]
  have hdrop : (host ++ portText port).dropWhile (· != ':') = portText port := by
    rw [List.dropWhile_append_of_pos hplain]
    cases port <;> simp [portText]
  have hbracket : ∀ rest, host ++ portText port ≠ '[' :: rest := by
    intro rest heq
    cases host with
    | nil => cases port <;> exact nomatch heq
    | cons c host =>
      exact ne_of_isSmall (h c List.mem_cons_self) rfl (List.cons.inj heq).1
  simp only [cutHost, htake, hdrop]
  cases port <;> rfl

theorem readHost_small {host host' : List Char} (h : ∀ c ∈ host, isSmall c = true)
    (hread : readHost host = .ok host') : host' = host := by
  have hhead : (host.head? == some '[') = false := by
    cases host with
    | nil => rfl
    | cons c host => simpa using ne_of_isSmall (h c List.mem_cons_self) (d := '[') rfl
  have hlower : host.map Char.toLower = host := by
    rw [List.map_congr_left fun c hc => toLower_of_isSmall (h c hc), List.map_id']
  have hencode : Percent.encode isHostChar host = host :=
    percent_encode_of_allowed fun c hc =>
      ⟨isHostChar_of_isSmall (h c hc), ne_of_isSmall (h c hc) rfl⟩
  unfold readHost at hread
  split at hread
  · rename_i hempty
    rw [List.isEmpty_iff.mp hempty]
    exact (Except.ok.inj hread).symm
  split at hread
  · split at hread
    · exact (Except.ok.inj hread).symm
    · exact nomatch hread
  rw [hhead, hlower, hencode] at hread
  split at hread
  · rename_i hbracket
    exact absurd hbracket (by simp)
  split at hread
  · exact (Except.ok.inj hread).symm
  · exact nomatch hread

theorem readPort_portText {port : Option Nat}
    (h : ∀ n ∈ port, (Decimal.digitsOf n).length ≤ Text.maxDigits) :
    readPort ((portText port).drop 1) = .ok (port.map Int.ofNat) := by
  cases port with
  | none => rfl
  | some n =>
    have hne : Decimal.digitsOf n ≠ [] := Nat.toDigits_ne_nil
    have hdigits : Text.integer? (Decimal.digitsOf n) = some (n : Int) := by
      rw [Text.integer?_digits (Json.digits_digitsOf n) hne (h n rfl), Json.digitsValue_digitsOf]
    change readPort (Decimal.digitsOf n) = _
    simp only [readPort, List.isEmpty_eq_false_iff.mpr hne, hdigits]
    rfl

/-- An address that is written as it is asked for: in small letters, and with no port or one that the
scheme does not have anyway. -/
structure Address.Plain (a : Address) (host : List Char) (port : Option Nat) : Prop where
  scheme_lower : a.scheme.map Char.toLower = a.scheme
  host_small : ∀ c ∈ host, isSmall c = true
  authority_eq : a.authority = host ++ portText port
  port_own : ∀ n ∈ port, (Decimal.digitsOf n).length ≤ Text.maxDigits ∧
    defaultPort (String.ofList a.scheme) ≠ some (n : Int)

namespace Address.Plain

variable {a : Address} {b : Parts} {host : List Char} {port : Option Nat}

theorem cutUserinfo_eq (h : a.Plain host port) :
    cutUserinfo a.authority = ([], host ++ portText port) := by
  have hsign : '@' ∉ host ++ portText port := by
    intro hmem
    rcases List.mem_append.mp hmem with hmem | hmem
    · exact ne_of_isSmall (h.host_small '@' hmem) rfl rfl
    · cases port with
      | none => exact nomatch hmem
      | some n =>
        rcases List.mem_cons.mp hmem with heq | hmem
        · exact absurd heq (by decide)
        · exact absurd (Json.digits_digitsOf n '@' hmem) (by decide)
  rw [cutUserinfo, h.authority_eq, Text.cutAtLast?_eq_none.mpr hsign]
  rfl

/-- What such an address is read as. -/
theorem eq_of_read (h : a.Plain host port) (hread : read a.text = .ok b) :
    b = ⟨String.ofList a.scheme, "", String.ofList host, port.map Int.ofNat,
      String.ofList a.path⟩ := by
  obtain ⟨p, hfront, rfl⟩ := exists_front hread
  have hport := readPort_portText fun n hn => (h.port_own n hn).1
  have hown : (if port.map Int.ofNat = defaultPort (String.ofList a.scheme) then none
      else port.map Int.ofNat) = port.map Int.ofNat := by
    cases port with
    | none => exact ite_self none
    | some n => exact if_neg (h.port_own n rfl).2.symm
  simp only [front, h.cutUserinfo_eq, cutHost_append h.host_small, h.scheme_lower, hport] at hfront
  cases hhost : readHost host with
  | error e =>
    rw [hhost] at hfront
    cases hfront
  | ok host' =>
    rw [hhost, readHost_small h.host_small hhost] at hfront
    have hparts := (Except.ok.inj hfront).symm
    rw [hown] at hparts
    rw [hparts]
    rfl

/-- The authority of such an address is kept. -/
theorem authority_of_read (h : a.Plain host port) (hread : read a.text = .ok b) :
    b.authority = String.ofList a.authority := by
  rw [h.eq_of_read hread, h.authority_eq, ← String.toList_inj]
  cases port with
  | none => simp [Parts.authority, portText]
  | some n =>
    have hport : (s!":{(n : Int)}").toList = ':' :: Decimal.digitsOf n := by
      rw [← String.toList_ofList (l := Decimal.digitsOf n)]
      exact String.toList_append
    simpa [Parts.authority, portText] using hport

end Address.Plain

end Sluice.Url
