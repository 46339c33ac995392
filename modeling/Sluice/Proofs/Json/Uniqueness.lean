import Sluice.Proofs.Json.RoundTrip

/-!
Every finite value has a compact text of its own, however many digits its whole numbers have: reading
cannot tell this, for it refuses long numbers. The text of a value shows what kind of value it is by
its first character and where it ends by itself, unless it is a number, in which case what follows
must not go on with one.
-/

namespace Sluice.Json

section UniquelyReadable

variable {α : Type} (text : α → List Char) (ok : α → Prop)

/-- The text of a value can be told from what follows it and from the texts of all other values. -/
def UniquelyReadable (a : α) : Prop :=
  ∀ b, ok b → ∀ rest rest', NoNumber rest → NoNumber rest' →
    text a ++ rest = text b ++ rest' → a = b ∧ rest = rest'

def listed (xs : List α) : List Char :=
  xs.flatMap fun x => ',' :: text x

variable {text ok} {xs ys : List α} {close : Char} {rest rest' : List Char}

theorem noNumber_listed (hclose : isDigit close = false ∧ close ≠ '.' ∧ close ≠ 'e' ∧ close ≠ 'E')
    (xs : List α) (rest : List Char) : NoNumber (listed text xs ++ close :: rest) := by
  cases xs with
  | nil => simpa [NoNumber, listed] using hclose
  | cons x xs => simp [NoNumber, listed, isDigit]

/-- Listed texts are told up to the character that closes the list. -/
theorem listed_uniquelyReadable (hcomma : close ≠ ',')
    (hclose : isDigit close = false ∧ close ≠ '.' ∧ close ≠ 'e' ∧ close ≠ 'E')
    (hreadable : ∀ x ∈ xs, UniquelyReadable text ok x) (hys : ∀ y ∈ ys, ok y)
    (h : listed text xs ++ close :: rest = listed text ys ++ close :: rest') :
    xs = ys ∧ rest = rest' := by
  induction xs generalizing ys with
  | nil =>
    cases ys with
    | nil => exact ⟨rfl, (List.cons.inj h).2⟩
    | cons y ys => exact absurd (List.cons.inj h).1 hcomma
  | cons x xs ih =>
    cases ys with
    | nil => exact absurd (List.cons.inj h).1.symm hcomma
    | cons y ys =>
      rw [List.forall_mem_cons] at hreadable hys
      have htexts : text x ++ (listed text xs ++ close :: rest) =
          text y ++ (listed text ys ++ close :: rest') := by
        simpa [listed] using h
      obtain ⟨rfl, hmore⟩ := hreadable.1 y hys.1 _ _ (noNumber_listed hclose xs rest)
        (noNumber_listed hclose ys rest') htexts
      obtain ⟨rfl, hrest⟩ := ih hreadable.2 hys.2 hmore
      exact ⟨rfl, hrest⟩

def joined (text : α → List Char) : List α → List Char
  | [] => []
  | x :: xs => text x ++ listed text xs

/-- Joined texts are told up to the character that closes them, with which none of them begins. -/
theorem joined_uniquelyReadable (hcomma : close ≠ ',')
    (hclose : isDigit close = false ∧ close ≠ '.' ∧ close ≠ 'e' ∧ close ≠ 'E')
    (hbegins : ∀ a, ok a → ∃ c t, text a = c :: t ∧ c ≠ close) (hxs : ∀ x ∈ xs, ok x)
    (hreadable : ∀ x ∈ xs, UniquelyReadable text ok x) (hys : ∀ y ∈ ys, ok y)
    (h : joined text xs ++ close :: rest = joined text ys ++ close :: rest') :
    xs = ys ∧ rest = rest' := by
  have hnil {y : α} (hy : ok y) (more : List Char) (rest rest' : List Char) :
      close :: rest ≠ text y ++ more ++ close :: rest' := by
    obtain ⟨c, t, htext, hne⟩ := hbegins y hy
    rw [htext]
    exact fun heq => hne (List.cons.inj heq).1.symm
  cases xs with
  | nil =>
    cases ys with
    | nil => exact ⟨rfl, (List.cons.inj h).2⟩
    | cons y ys => exact absurd h (hnil (hys y List.mem_cons_self) _ rest rest')
  | cons x xs =>
    cases ys with
    | nil => exact absurd h.symm (hnil (hxs x List.mem_cons_self) _ rest' rest)
    | cons y ys =>
      rw [List.forall_mem_cons] at hreadable hys
      rw [joined, joined, List.append_assoc, List.append_assoc] at h
      obtain ⟨rfl, hmore⟩ := hreadable.1 y hys.1 _ _ (noNumber_listed hclose xs rest)
        (noNumber_listed hclose ys rest') h
      obtain ⟨rfl, hrest⟩ := listed_uniquelyReadable hcomma hclose hreadable.2 hys.2 hmore
      exact ⟨rfl, hrest⟩

end UniquelyReadable

def member (kv : String × Json) : List Char :=
  writeString kv.1 ++ ':' :: write compact kv.2

theorem writeMore_compact {xs : List Json}
    (h : ∀ x ∈ xs, ∀ depth, writeAt compact depth x = write compact x) (depth : Nat) :
    writeMore compact depth xs = listed (write compact) xs := by
  induction xs with
  | nil => rfl
  | cons x xs ih =>
    rw [List.forall_mem_cons] at h
    rw [writeMore, h.1, ih h.2]
    rfl

theorem writeMembers_compact {ms : List (String × Json)}
    (h : ∀ kv ∈ ms, ∀ depth, writeAt compact depth kv.2 = write compact kv.2) (depth : Nat) :
    writeMembers compact depth ms = listed member ms := by
  induction ms with
  | nil => rfl
  | cons kv ms ih =>
    rw [List.forall_mem_cons] at h
    rw [writeMembers, h.1, ih h.2]
    simp [Layout.between, Layout.newline, compact, listed, member]

/-- A layout of one line looks the same at every depth. -/
theorem writeAt_compact (j : Json) : ∀ depth, writeAt compact depth j = write compact j := by
  induction j using shape_induction with
  | bool b => cases b <;> exact fun _ => rfl
  | arr xs ih =>
    intro depth
    cases xs with
    | nil => rfl
    | cons x xs =>
      rw [List.forall_mem_cons] at ih
      rw [write, writeAt, writeAt, writeMore_compact ih.2, writeMore_compact ih.2, ih.1, ih.1]
      rfl
  | obj ms ih =>
    intro depth
    cases ms with
    | nil => rfl
    | cons kv ms =>
      rw [List.forall_mem_cons] at ih
      rw [write, writeAt, writeAt, writeMembers_compact ih.2, writeMembers_compact ih.2, ih.1, ih.1]
      rfl
  | _ => exact fun _ => rfl

theorem write_arr (xs : List Json) :
    write compact (.arr xs) = '[' :: (joined (write compact) xs ++ [']']) := by
  cases xs with
  | nil => rfl
  | cons x xs =>
    rw [write, writeAt, writeAt_compact, writeMore_compact fun y _ => writeAt_compact y]
    simp [Layout.newline, compact, joined]

theorem write_obj (ms : List (String × Json)) :
    write compact (.obj ms) = '\x7b' :: (joined member ms ++ ['\x7d']) := by
  cases ms with
  | nil => rfl
  | cons kv ms =>
    rw [write, writeAt, writeAt_compact, writeMembers_compact fun y _ => writeAt_compact y.2]
    simp [Layout.newline, compact, member, joined]

inductive Kind where
  | null
  | bool (b : Bool)
  | number
  | str
  | arr
  | obj

def kind : Json → Kind
  | .null => .null
  | .bool b => .bool b
  | .int _ | .float _ => .number
  | .str _ => .str
  | .arr _ => .arr
  | .obj _ => .obj

/-- The kind that the first character of a text shows. -/
def Kind.ofChar (c : Char) : Kind :=
  if c = 'n' then .null
  else if c = 't' then .bool true
  else if c = 'f' then .bool false
  else if c = '"' then .str
  else if c = '[' then .arr
  else if c = '\x7b' then .obj
  else .number

theorem Numeric.kind {cs : List Char} (h : Numeric cs) :
    ∃ c t, cs = c :: t ∧ Kind.ofChar c = .number := by
  obtain ⟨negative, d, ds, rfl, hd⟩ := h
  cases negative with
  | true => exact ⟨'-', d :: ds, rfl, rfl⟩
  | false =>
    have hne (c : Char) (hc : isDigit c = false) : d ≠ c := by
      rintro rfl
      rw [hd] at hc
      cases hc
    refine ⟨d, ds, rfl, ?_⟩
    simp [Kind.ofChar, hne 'n' rfl, hne 't' rfl, hne 'f' rfl, hne '"' rfl, hne '[' rfl,
      hne '\x7b' rfl]

/-- A finite number is written as its size with a sign. -/
theorem write_float {x : Binary64} (h : x.isFinite = true) :
    ∃ negative m, x = .finite negative m ∧
      write compact (.float x) = signed negative (compact.float.size m) := by
  cases x with
  | finite negative m => exact ⟨negative, m, rfl, write_finite compact.float negative m⟩
  | nan => cases h
  | infinite negative => cases h

theorem kind_write {j : Json} (h : j.allFinite = true) :
    ∃ c t, write compact j = c :: t ∧ Kind.ofChar c = j.kind := by
  cases j with
  | null => exact ⟨'n', _, rfl, rfl⟩
  | bool b => cases b <;> exact ⟨_, _, rfl, rfl⟩
  | int n => exact (numeric_writeInt n).kind
  | float x =>
    obtain ⟨negative, m, -, htext⟩ := write_float h
    rw [htext]
    exact (numeric_size negative _ m).kind
  | str s => exact ⟨'"', _, rfl, rfl⟩
  | arr xs => cases xs <;> exact ⟨'[', _, rfl, rfl⟩
  | obj ms => cases ms <;> exact ⟨'\x7b', _, rfl, rfl⟩

variable {rest rest' : List Char}

/-- Texts that begin alike are texts of values of one kind. -/
theorem kind_eq {a b : Json} (ha : a.allFinite = true) (hb : b.allFinite = true)
    (h : write compact a ++ rest = write compact b ++ rest') : a.kind = b.kind := by
  obtain ⟨c, t, hc, hkind⟩ := kind_write ha
  obtain ⟨c', t', hc', hkind'⟩ := kind_write hb
  rw [hc, hc'] at h
  rw [← hkind, ← hkind', (List.cons.inj h).1]

theorem IsWhole.uniquelyReadable {whole whole' : List Char} (hwhole : IsWhole whole)
    (hwhole' : IsWhole whole')
    (hrest : NoNumber rest) (hrest' : NoNumber rest') (h : whole ++ rest = whole' ++ rest') :
    whole = whole' ∧ rest = rest' := by
  have hread := hwhole.read hrest.noDigit
  rw [h, hwhole'.read hrest'.noDigit] at hread
  obtain ⟨hsame, hmore⟩ := Prod.mk.inj (Option.some.inj hread)
  exact ⟨hsame.symm, hmore.symm⟩

/-- The text of a whole number is told by its digits, with a minus sign or without one. -/
theorem int_uniquelyReadable {n m : Int} (hrest : NoNumber rest) (hrest' : NoNumber rest')
    (h : writeInt n ++ rest = writeInt m ++ rest') : n = m ∧ rest = rest' := by
  -- A text without a sign begins with a digit.
  have hsign (k : Nat) (t t' : List Char) : Decimal.digitsOf k ++ t ≠ '-' :: t' := by
    obtain ⟨d, ds, hds, hd⟩ := (isWhole_digitsOf k).cons
    rw [hds, List.cons_append]
    intro heq
    rw [(List.cons.inj heq).1] at hd
    exact absurd hd (by decide)
  have hdigits {k k' : Nat} (hk : Decimal.digitsOf k ++ rest = Decimal.digitsOf k' ++ rest') :
      k = k' ∧ rest = rest' := by
    obtain ⟨hsame, hmore⟩ :=
      (isWhole_digitsOf k).uniquelyReadable (isWhole_digitsOf k') hrest hrest' hk
    refine ⟨?_, hmore⟩
    rw [← digitsValue_digitsOf k, hsame, digitsValue_digitsOf]
  cases n with
  | ofNat k =>
    cases m with
    | ofNat k' =>
      obtain ⟨rfl, hmore⟩ := hdigits h
      exact ⟨rfl, hmore⟩
    | negSucc k' => exact absurd h (hsign k rest _)
  | negSucc k =>
    cases m with
    | ofNat k' => exact absurd h.symm (hsign k' rest' _)
    | negSucc k' =>
      obtain ⟨hk, hmore⟩ := hdigits (List.cons.inj h).2
      exact ⟨by rw [Nat.succ.inj hk], hmore⟩

/-- A whole number is read as such or refused, so its text is that of no floating point number. -/
theorem int_ne_float (n : Int) (negative : Bool) (m : Magnitude) (f : Decimal.Notation)
    (hrest : NoNumber rest) (hrest' : NoNumber rest') :
    writeInt n ++ rest ≠ signed negative (f.size m) ++ rest' := by
  intro h
  have hfloat := readNumber_size negative f m hrest'
  rw [← signed_append, ← h] at hfloat
  have hint : ∃ negative' k, writeInt n = signed negative' (Decimal.digitsOf k) := by
    cases n with
    | ofNat k => exact ⟨false, k, rfl⟩
    | negSucc k => exact ⟨true, k + 1, rfl⟩
  obtain ⟨negative', k, htext⟩ := hint
  rw [htext, signed_append, readNumber_digits negative' (isWhole_digitsOf k) hrest] at hfloat
  split at hfloat
  · cases hfloat
  · cases hfloat

theorem size_uniquelyReadable {negative negative' : Bool} {m m' : Magnitude} {f : Decimal.Notation}
    (hrest : NoNumber rest) (hrest' : NoNumber rest')
    (h : signed negative (f.size m) ++ rest = signed negative' (f.size m') ++ rest') :
    Binary64.finite negative m = .finite negative' m' ∧ rest = rest' := by
  have hread := readNumber_size negative f m hrest
  rw [← signed_append, h, signed_append, readNumber_size negative' f m' hrest'] at hread
  obtain ⟨hsame, hmore⟩ := Prod.mk.inj (Except.ok.inj hread)
  exact ⟨(float.inj hsame).symm, hmore.symm⟩

theorem writeString_uniquelyReadable {s t : String}
    (h : writeString s ++ rest = writeString t ++ rest') :
    s = t ∧ rest = rest' := by
  have htail (s : String) (rest : List Char) : writeString s ++ rest =
      '"' :: (s.toList.flatMap escapeChar ++ '"' :: rest) := by
    simp [writeString]
  rw [htail, htail] at h
  have hread := @readString_write [] s rest
  rw [(List.cons.inj h).2, readString_write] at hread
  obtain ⟨hsame, hmore⟩ := Prod.mk.inj (Except.ok.inj hread)
  exact ⟨hsame.symm, hmore.symm⟩

def IsFinite (j : Json) : Prop :=
  j.allFinite = true

theorem member_uniquelyReadable {kv : String × Json}
    (h : UniquelyReadable (write compact) IsFinite kv.2) :
    UniquelyReadable member (fun kv => kv.2.IsFinite) kv := by
  intro kv' hfinite rest rest' hrest hrest' htext
  rw [member, member, List.append_assoc, List.append_assoc] at htext
  obtain ⟨hkey, hmore⟩ := writeString_uniquelyReadable htext
  obtain ⟨hvalue, hmore⟩ := h kv'.2 hfinite rest rest' hrest hrest' (List.cons.inj hmore).2
  exact ⟨Prod.ext hkey hvalue, hmore⟩

/-- The text of a finite value is told from the texts of all other finite values. -/
theorem uniquelyReadable {a : Json} (ha : a.IsFinite) :
    UniquelyReadable (write compact) IsFinite a := by
  induction a using shape_induction with
  | null =>
    intro b hb rest rest' _ _ h
    have hkind := kind_eq ha hb h
    cases b with
    | null => exact ⟨rfl, List.append_cancel_left h⟩
    | _ => exact nomatch hkind
  | bool x =>
    intro b hb rest rest' _ _ h
    have hkind := kind_eq ha hb h
    cases b with
    | bool y =>
      obtain rfl := Kind.bool.inj hkind
      exact ⟨rfl, List.append_cancel_left h⟩
    | _ => exact nomatch hkind
  | int n =>
    intro b hb rest rest' hrest hrest' h
    have hkind := kind_eq ha hb h
    cases b with
    | int m =>
      obtain ⟨rfl, hmore⟩ := int_uniquelyReadable hrest hrest' h
      exact ⟨rfl, hmore⟩
    | float y =>
      obtain ⟨negative, m, -, htext⟩ := write_float hb
      rw [htext] at h
      exact absurd h (int_ne_float n negative m _ hrest hrest')
    | _ => exact nomatch hkind
  | float x =>
    intro b hb rest rest' hrest hrest' h
    have hkind := kind_eq ha hb h
    obtain ⟨negative, m, rfl, htext⟩ := write_float ha
    rw [htext] at h
    cases b with
    | int n => exact absurd h.symm (int_ne_float n negative m _ hrest' hrest)
    | float y =>
      obtain ⟨negative', m', rfl, htext'⟩ := write_float hb
      rw [htext'] at h
      obtain ⟨hsame, hmore⟩ := size_uniquelyReadable hrest hrest' h
      exact ⟨congrArg float hsame, hmore⟩
    | _ => exact nomatch hkind
  | str s =>
    intro b hb rest rest' _ _ h
    have hkind := kind_eq ha hb h
    cases b with
    | str t =>
      obtain ⟨rfl, hmore⟩ := writeString_uniquelyReadable h
      exact ⟨rfl, hmore⟩
    | _ => exact nomatch hkind
  | arr xs ih =>
    intro b hb rest rest' _ _ h
    have hkind := kind_eq ha hb h
    cases b with
    | arr ys =>
      have hxs := allFinite_arr.mp ha
      have hbegins : ∀ x : Json, x.IsFinite → ∃ c t, write compact x = c :: t ∧ c ≠ ']' := by
        intro x hx
        obtain ⟨c, t, htext, -, hne, -⟩ := begins_writeAt (l := compact) 0 x (.inr hx)
        exact ⟨c, t, htext, hne⟩
      rw [write_arr, write_arr, List.cons_append, List.cons_append, List.append_assoc,
        List.append_assoc] at h
      obtain ⟨rfl, hmore⟩ := joined_uniquelyReadable (by decide) (by decide) hbegins hxs
        (fun x hx => ih x hx (hxs x hx)) (allFinite_arr.mp hb) (List.cons.inj h).2
      exact ⟨rfl, hmore⟩
    | _ => exact nomatch hkind
  | obj ms ih =>
    intro b hb rest rest' _ _ h
    have hkind := kind_eq ha hb h
    cases b with
    | obj ns =>
      have hms := allFinite_obj.mp ha
      have hbegins : ∀ kv : String × Json, kv.2.IsFinite → ∃ c t, member kv = c :: t ∧ c ≠ '\x7d' :=
        fun kv _ => ⟨'"', _, rfl, by decide⟩
      rw [write_obj, write_obj, List.cons_append, List.cons_append, List.append_assoc,
        List.append_assoc] at h
      obtain ⟨rfl, hmore⟩ := joined_uniquelyReadable (by decide) (by decide) hbegins hms
        (fun kv hkv => member_uniquelyReadable (ih kv hkv (hms kv hkv))) (allFinite_obj.mp hb)
        (List.cons.inj h).2
      exact ⟨rfl, hmore⟩
    | _ => exact nomatch hkind

end Sluice.Json
