import Sluice.Proofs.Url.Parts

/-!
What a library of addresses is documented to do with an address that names a host. Its text is its
scheme, its authority and its path in a row; scheme and authority are read alike whatever the path is;
and an absolute path, as a reference, leaves scheme and authority alone and takes the place of the
path. A scheme without hosts has nothing to refer from: there the path comes out alone.
-/

namespace Sluice.Url

/-- A path that stands for itself: names of letters, each after a slash. -/
def IsPlainPath (path : String) : Prop :=
  ∃ names : List (List Char), names ≠ [] ∧
    (∀ name ∈ names, name ≠ [] ∧ ∀ c ∈ name, isLetter c = true) ∧
    path.toList = names.flatMap fun name => '/' :: name

theorem endpointPath_isPlainPath : IsPlainPath endpointPath := by
  refine ⟨["tools".toList, "invoke".toList], by simp, ?_, by decide +kernel⟩
  simp [isLetter]

def Library.root (lib : Library) (b : lib.Address) : String :=
  lib.scheme b ++ "://" ++ lib.authority b

/-- The laws of a library of addresses, given the schemes whose addresses can be referred from. -/
structure Library.Lawful (lib : Library) (refers : String → Bool) : Prop where
  text_eq : ∀ b, lib.scheme b ≠ "" → lib.authority b ≠ "" → lib.text b = lib.root b ++ lib.path b
  nonempty : ∀ {a : Url.Address} {b}, lib.read a.text = .ok b → lib.scheme b ≠ "" ∧ lib.authority b ≠ ""
  read_alike : ∀ {a a' : Url.Address} {b b'}, a.scheme = a'.scheme → a.authority = a'.authority →
    lib.read a.text = .ok b → lib.read a'.text = .ok b' →
    lib.scheme b = lib.scheme b' ∧ lib.authority b = lib.authority b'
  read_bare : ∀ {a : Url.Address} {b}, lib.read a.text = .ok b → ∃ b', lib.read a.bare.text = .ok b'
  read_plain : ∀ {a : Url.Address} {b host port}, a.Plain host port → lib.read a.text = .ok b →
    lib.scheme b = String.ofList a.scheme ∧ lib.authority b = String.ofList a.authority
  join_path : ∀ {a : Url.Address} {b e path}, lib.read a.text = .ok b → refers (lib.scheme b) = true →
    IsPlainPath path → lib.join b path = .ok e →
    lib.scheme e = lib.scheme b ∧ lib.authority e = lib.authority b ∧ lib.path e = path
  join_alone : ∀ {a : Url.Address} {b e path}, lib.read a.text = .ok b → refers (lib.scheme b) = false →
    IsPlainPath path → lib.join b path = .ok e → lib.text e = path
  refers_web : ∀ scheme ∈ ["http", "https"], refers scheme = true

namespace Library.Lawful

variable {lib : Library} {refers : String → Bool} {a : Url.Address} {b e : lib.Address}

/-- The front of an address is read without its path, and for a plain address it is the one given. -/
theorem exists_bare (hlib : lib.Lawful refers) (hread : lib.read a.text = .ok b) :
    ∃ b', lib.read a.bare.text = .ok b' ∧ lib.root b' = lib.root b := by
  obtain ⟨b', hbare⟩ := hlib.read_bare hread
  have hfront : a.bare.scheme = a.scheme ∧ a.bare.authority = a.authority := ⟨rfl, rfl⟩
  obtain ⟨hscheme, hauthority⟩ := hlib.read_alike hfront.1 hfront.2 hbare hread
  exact ⟨b', hbare, by rw [root, root, hscheme, hauthority]⟩

theorem root_plain (hlib : lib.Lawful refers) {host : List Char} {port : Option Nat}
    (hplain : a.Plain host port) (hread : lib.read a.text = .ok b) : lib.root b = a.bare.text := by
  obtain ⟨hscheme, hauthority⟩ := hlib.read_plain hplain hread
  rw [root, hscheme, hauthority, ← String.toList_inj]
  simp [Address.text, Address.bare]

theorem text_join (hlib : lib.Lawful refers) (hread : lib.read a.text = .ok b)
    (hrefers : refers (lib.scheme b) = true) {path : String} (hpath : IsPlainPath path)
    (hjoin : lib.join b path = .ok e) : lib.text e = lib.root b ++ path := by
  obtain ⟨hscheme, hauthority, hkept⟩ := hlib.join_path hread hrefers hpath hjoin
  obtain ⟨hne, hne'⟩ := hlib.nonempty hread
  rw [hlib.text_eq e (hscheme ▸ hne) (hauthority ▸ hne'), hkept, root, root, hscheme, hauthority]

/-- A reference is behind something more of an address than its front only if there is nothing more,
and never for a scheme that cannot be referred from. -/
theorem text_join_eq_iff (hlib : lib.Lawful refers) (hread : lib.read a.text = .ok b)
    {path : String} (hpath : IsPlainPath path) (hjoin : lib.join b path = .ok e)
    (between : List Char) :
    lib.text e = lib.root b ++ String.ofList between ++ path ↔
      refers (lib.scheme b) = true ∧ between = [] := by
  have hchars : (lib.root b ++ String.ofList between ++ path).toList =
      (lib.root b).toList ++ (between ++ path.toList) := by
    rw [String.toList_append, String.toList_append, String.toList_ofList, List.append_assoc]
  cases hrefers : refers (lib.scheme b) with
  | true =>
    rw [hlib.text_join hread hrefers hpath hjoin, ← String.toList_inj, hchars, String.toList_append,
      List.append_cancel_left_eq, List.self_eq_append_left]
    exact (and_iff_right rfl).symm
  | false =>
    refine iff_of_false (fun h => ?_) (by simp)
    rw [hlib.join_alone hread hrefers hpath hjoin, ← String.toList_inj, hchars, ← List.append_assoc,
      List.self_eq_append_left] at h
    simpa [root] using (List.append_eq_nil_iff.mp h).1

end Library.Lawful

namespace Parts

variable {p e : Parts} {path : String}

theorem authority_ne_empty (h : p.host ≠ "") : p.authority ≠ "" := by
  simp [authority, h]

theorem eq_of_join_ite {joined : Parts}
    (h : (if maxLength < joined.text.toList.length then .error UrlError.tooLong else .ok joined) =
      Except.ok e) : e = joined := by
  split at h
  · cases h
  · exact (Except.ok.inj h).symm

theorem eq_of_join (habsolute : p.isAbsolute = true) (h : p.join path = .ok e) :
    e = { p with path } := by
  rw [join, if_pos habsolute] at h
  exact eq_of_join_ite h

theorem eq_ofPath_of_join (habsolute : p.isAbsolute = false) (h : p.join path = .ok e) :
    e = ofPath path := by
  rw [join, habsolute] at h
  exact eq_of_join_ite h

theorem nonempty_of_read {a : Address} (h : read a.text = .ok p) : p.scheme ≠ "" ∧ p.host ≠ "" := by
  obtain ⟨front, hfront, rfl⟩ := Address.exists_front h
  have hne := Address.nonempty_of_front hfront
  exact hne

/-- An address that names a host can be asked if its scheme has hosts. -/
theorem isAbsolute_of_read {a : Address} (h : read a.text = .ok p) :
    p.isAbsolute = hostSchemes.contains p.scheme := by
  rw [isAbsolute, String.isEmpty_eq_false_iff.mpr (nonempty_of_read h).2, Bool.not_false,
    Bool.and_true]

end Parts

namespace Library

theorem standard_read (text : String) : standard.read text = Url.read text := by
  delta standard
  with_reducible rfl

theorem standard_join (b : standard.Address) (path : String) :
    standard.join b path = Parts.join b path := by
  delta standard
  with_reducible rfl

/-- The library in use keeps the laws. -/
theorem standard_lawful : standard.Lawful hostSchemes.contains where
  text_eq b hscheme _ := by
    have hfilled : b.scheme.isEmpty = false := String.isEmpty_eq_false_iff.mpr hscheme
    change b.text = b.scheme ++ "://" ++ b.authority ++ b.path
    simp [Parts.text, hfilled]
  nonempty hread := by
    rw [standard_read] at hread
    exact (Parts.nonempty_of_read hread).imp_right Parts.authority_ne_empty
  read_alike hscheme hauthority hread hread' := by
    rw [standard_read] at hread hread'
    obtain ⟨p, hfront, rfl⟩ := Address.exists_front hread
    obtain ⟨p', hfront', rfl⟩ := Address.exists_front hread'
    rw [Address.front, hscheme, hauthority] at hfront
    obtain rfl := Except.ok.inj (hfront.symm.trans hfront')
    exact ⟨rfl, rfl⟩
  read_bare hread := by
    rw [standard_read] at hread
    exact ⟨_, (standard_read _).trans (Address.read_bare hread)⟩
  read_plain hplain hread := by
    rw [standard_read] at hread
    exact ⟨congrArg Parts.scheme (hplain.eq_of_read hread), hplain.authority_of_read hread⟩
  join_path hread hrefers _ hjoin := by
    rw [standard_read] at hread
    rw [standard_join] at hjoin
    rw [Parts.eq_of_join ((Parts.isAbsolute_of_read hread).trans hrefers) hjoin]
    exact ⟨rfl, rfl, rfl⟩
  join_alone hread hrefers _ hjoin := by
    rw [standard_read] at hread
    rw [standard_join] at hjoin
    rw [Parts.eq_ofPath_of_join ((Parts.isAbsolute_of_read hread).trans hrefers) hjoin]
    rfl
  refers_web := by decide

end Library

end Sluice.Url
