import Mathlib.Data.List.Basic
import Mathlib.Logic.Equiv.Defs

/-!
# Streams of self-delimiting records

A log file is a concatenation of encoded values with neither framing nor
checksums, read back value by value until the input runs out.  This module
develops such codecs over an arbitrary alphabet: the laws one value has to
satisfy, the read loop, and what the loop returns on a stream that was cut in
the middle of its last value.

Main results:

- Theorem `StreamCodec.readAll_eq_ok_iff`: the read loop succeeds exactly when
  the stream is a list of encoded values followed by a torn tail.
- Instance `StreamCodec.decidableClean`: whether a stream ends between two
  values can be evaluated.
- Theorem `StreamCodec.Holds.of_isPrefix`: every prefix of a readable stream is
  readable and holds a prefix of its values.
- Theorem `StreamCodec.Holds.append`: appending to a stream that ends between
  two values keeps every value of both parts.
- Theorem `StreamCodec.holds_take`: what is left of a stream that is cut.

Current gaps:

- A codec of unbounded values reads whole fields; buffered reads are left out.
-/

namespace Greplog
namespace Foundation

/-- What decoding the front of a stream yields: a value and the remaining
input, the end of the input inside a value, or an ill-formed value. -/
inductive Decoded (ε α β : Type*)
  | value (a : α) (rest : List β)
  | eof
  | invalid (e : ε)

namespace Decoded

variable {ε α β γ : Type*}

/-- The same outcome when more input follows. -/
def extend (more : List β) : Decoded ε α β → Decoded ε α β
  | value a rest => value a (rest ++ more)
  | eof => eof
  | invalid e => invalid e

/-- Continue decoding behind a value. -/
def bind (d : Decoded ε α β) (k : α → List β → Decoded ε γ β) : Decoded ε γ β :=
  match d with
  | value a rest => k a rest
  | eof => eof
  | invalid e => invalid e

/-- Apply a function to the decoded value. -/
def map (f : α → γ) (d : Decoded ε α β) : Decoded ε γ β :=
  d.bind fun a rest => value (f a) rest

/-- The input behind a value. -/
def rest : Decoded ε α β → Option (List β)
  | value _ rest => some rest
  | _ => none

/-- There is a rest exactly behind a value. -/
theorem rest_eq_some_iff {d : Decoded ε α β} {bs : List β} :
    d.rest = some bs ↔ ∃ a, d = value a bs := by
  cases d with
  | value a r => simp [rest]
  | eof => simp [rest]
  | invalid e => simp [rest]

/-- The input has run out inside a value. -/
def is_eof : Decoded ε α β → Bool
  | eof => true
  | _ => false

theorem is_eof_iff {d : Decoded ε α β} : d.is_eof = true ↔ d = eof := by
  cases d <;> simp [is_eof]

/-- A mapped result is a value exactly if the result is one. -/
theorem map_eq_value_iff {f : α → γ} {d : Decoded ε α β} {c : γ} {rest : List β} :
    d.map f = value c rest ↔ ∃ a, d = value a rest ∧ f a = c := by
  cases d with
  | value a r =>
      simp only [map, bind, value.injEq]
      constructor
      · rintro ⟨hc, hr⟩
        exact ⟨a, ⟨rfl, hr⟩, hc⟩
      · rintro ⟨b, ⟨hb, hr⟩, hc⟩
        exact ⟨hb ▸ hc, hr⟩
  | eof => simp [map, bind]
  | invalid e => simp [map, bind]

theorem map_eq_eof_iff {f : α → γ} {d : Decoded ε α β} : d.map f = eof ↔ d = eof := by
  cases d with
  | value a r => simp [map, bind]
  | eof => simp [map, bind]
  | invalid e => simp [map, bind]

/-- Two readings give a value exactly if both do. -/
theorem bind_eq_value_iff {d : Decoded ε α β} {k : α → List β → Decoded ε γ β}
    {c : γ} {rest : List β} :
    d.bind k = value c rest ↔ ∃ a r, d = value a r ∧ k a r = value c rest := by
  cases d with
  | value a r => simp [bind]
  | eof => simp [bind]
  | invalid e => simp [bind]

end Decoded

/-- A codec whose encodings can be written one after the other and read back.

`decode_stable` says that the outcome of decoding is fixed as soon as it is not
the end of the input: a decoder never looks past what it consumes. -/
structure StreamCodec (ε α β : Type*) where
  encode : α → List β
  decode : List β → Decoded ε α β
  encode_ne_nil : ∀ a, encode a ≠ []
  decode_encode : ∀ a, decode (encode a) = .value a []
  decode_sound : ∀ {bs a rest}, decode bs = .value a rest → bs = encode a ++ rest
  decode_stable : ∀ bs more, decode bs ≠ .eof → decode (bs ++ more) = (decode bs).extend more

namespace StreamCodec

variable {ε α β γ : Type*} (c : StreamCodec ε α β)

/-! ## One value -/

/-- Decoding an encoding consumes exactly it. -/
theorem decode_encode_append (a : α) (rest : List β) :
    c.decode (c.encode a ++ rest) = .value a rest := by
  have hne : c.decode (c.encode a) ≠ .eof := by
    rw [c.decode_encode a]
    exact fun h => by cases h
  rw [c.decode_stable _ rest hne, c.decode_encode a]
  rfl

/-- A prefix of a stream that runs out of input runs out of input. -/
theorem decode_eof_of_isPrefix {p bs : List β} (hp : p <+: bs) (heof : c.decode bs = .eof) :
    c.decode p = .eof := by
  obtain ⟨more, rfl⟩ := hp
  by_contra hne
  have hext := c.decode_stable p more hne
  rw [heof] at hext
  cases hd : c.decode p with
  | value a rest => rw [hd] at hext; cases hext
  | eof => exact hne hd
  | invalid e => rw [hd] at hext; cases hext

/-- An encoding cut anywhere before its end runs out of input. -/
theorem decode_cut {a : α} {p : List β} (hp : p <+: c.encode a) (hne : p ≠ c.encode a) :
    c.decode p = .eof := by
  obtain ⟨q, hq⟩ := hp
  by_contra hneof
  have hext := c.decode_stable p q hneof
  rw [hq, c.decode_encode a] at hext
  cases hd : c.decode p with
  | value b rest =>
      rw [hd] at hext
      simp only [Decoded.extend, Decoded.value.injEq] at hext
      have hqnil : q = [] := (List.append_eq_nil_iff.mp hext.2.symm).2
      exact hne (by simpa [hqnil] using hq)
  | eof => exact hneof hd
  | invalid e => rw [hd] at hext; cases hext

/-- The empty input has ended. -/
@[simp]
theorem decode_nil [Nonempty α] : c.decode [] = .eof :=
  c.decode_cut (a := Classical.arbitrary α) List.nil_prefix
    (fun h => c.encode_ne_nil _ h.symm)

/-! ## Streams of values -/

/-- The encodings of a list of values, one after the other. -/
def encodeAll (as : List α) : List β :=
  as.flatMap c.encode

@[simp]
theorem encodeAll_nil : c.encodeAll [] = [] :=
  rfl

@[simp]
theorem encodeAll_cons (a : α) (as : List α) :
    c.encodeAll (a :: as) = c.encode a ++ c.encodeAll as := by
  simp [encodeAll]

/-- Lists are encoded one behind the other. -/
@[simp]
theorem encodeAll_append (as bs : List α) :
    c.encodeAll (as ++ bs) = c.encodeAll as ++ c.encodeAll bs := by
  simp [encodeAll]

/-- The stream consists of the values `as` and an unfinished value. -/
def Holds (bs : List β) (as : List α) : Prop :=
  ∃ tail, bs = c.encodeAll as ++ tail ∧ c.decode tail = .eof

/-- The stream ends between two values. -/
def Clean (bs : List β) : Prop :=
  ∃ as, bs = c.encodeAll as

/-- What is encoded decodes to its end. -/
theorem clean_encodeAll (as : List α) : c.Clean (c.encodeAll as) :=
  ⟨as, rfl⟩

@[simp]
theorem clean_nil : c.Clean [] :=
  ⟨[], rfl⟩

variable {c}

/-- Two clean streams make a clean stream. -/
theorem Clean.append {bs more : List β} (h : c.Clean bs) (hmore : c.Clean more) :
    c.Clean (bs ++ more) := by
  obtain ⟨as, rfl⟩ := h
  obtain ⟨as', rfl⟩ := hmore
  exact ⟨as ++ as', by simp⟩

theorem Holds.nil_of_eof {bs : List β} (h : c.decode bs = .eof) : c.Holds bs [] :=
  ⟨bs, by simp, h⟩

/-- Prepending one encoded value. -/
theorem Holds.cons {a : α} {bs : List β} {as : List α} (h : c.Holds bs as) :
    c.Holds (c.encode a ++ bs) (a :: as) := by
  obtain ⟨tail, rfl, heof⟩ := h
  exact ⟨tail, by simp, heof⟩

/-- Appending to a stream that ends between two values keeps every value of
both parts. -/
theorem Holds.append {more : List β} {as as' : List α} (h : c.Holds more as') :
    c.Holds (c.encodeAll as ++ more) (as ++ as') := by
  obtain ⟨tail, rfl, heof⟩ := h
  exact ⟨tail, by simp, heof⟩

/-- What is read behind known values. -/
theorem Holds.behind {more : List β} {as all : List α} (h : c.Holds (c.encodeAll as ++ more) all) :
    ∃ as', all = as ++ as' ∧ c.Holds more as' := by
  induction as generalizing all with
  | nil => exact ⟨all, rfl, h⟩
  | cons a as ih =>
      obtain ⟨tail, htail, heof⟩ := h
      rw [encodeAll_cons, List.append_assoc] at htail
      cases all with
      | nil =>
          rw [encodeAll_nil, List.nil_append] at htail
          rw [← htail, c.decode_encode_append] at heof
          cases heof
      | cons b all =>
          rw [encodeAll_cons, List.append_assoc] at htail
          have hdec := congrArg c.decode htail
          rw [c.decode_encode_append, c.decode_encode_append, Decoded.value.injEq] at hdec
          obtain ⟨rfl, hrest⟩ := hdec
          obtain ⟨as', rfl, hholds⟩ := ih ⟨tail, hrest, heof⟩
          exact ⟨as', rfl, hholds⟩

/-- A clean stream holds its values. -/
theorem holds_encodeAll [Nonempty α] (as : List α) : c.Holds (c.encodeAll as) as :=
  ⟨[], by simp, c.decode_nil⟩

/-- A stream holds at most one list of values. -/
theorem Holds.unique {bs : List β} {as as' : List α} (h : c.Holds bs as)
    (h' : c.Holds bs as') : as = as' := by
  induction as generalizing bs as' with
  | nil =>
      obtain ⟨tail, htail, heof⟩ := h
      obtain ⟨tail', hbs, -⟩ := h'
      rw [htail] at hbs
      cases as' with
      | nil => rfl
      | cons a as' =>
          rw [encodeAll_nil, List.nil_append, encodeAll_cons, List.append_assoc] at hbs
          rw [hbs, c.decode_encode_append] at heof
          cases heof
  | cons a as ih =>
      obtain ⟨tail, rfl, heof⟩ := h
      obtain ⟨tail', hbs, heof'⟩ := h'
      rw [encodeAll_cons, List.append_assoc] at hbs
      cases as' with
      | nil =>
          rw [encodeAll_nil, List.nil_append] at hbs
          rw [← hbs, c.decode_encode_append] at heof'
          cases heof'
      | cons b as' =>
          rw [encodeAll_cons, List.append_assoc] at hbs
          have hdec := congrArg c.decode hbs
          rw [c.decode_encode_append, c.decode_encode_append] at hdec
          simp only [Decoded.value.injEq] at hdec
          obtain ⟨rfl, hrest⟩ := hdec
          rw [ih ⟨tail, rfl, heof⟩ ⟨tail', hrest, heof'⟩]

/-- Every prefix of a readable stream is readable and holds a prefix of its values. -/
theorem Holds.of_isPrefix {p bs : List β} {as : List α} (h : c.Holds bs as) (hp : p <+: bs) :
    ∃ as', as' <+: as ∧ c.Holds p as' := by
  induction as generalizing p bs with
  | nil =>
      obtain ⟨tail, htail, heof⟩ := h
      rw [htail, encodeAll_nil, List.nil_append] at hp
      exact ⟨[], List.nil_prefix, .nil_of_eof (c.decode_eof_of_isPrefix hp heof)⟩
  | cons a as ih =>
      obtain ⟨tail, rfl, heof⟩ := h
      rw [encodeAll_cons, List.append_assoc] at hp
      -- The cut falls either inside the first value or behind it.
      rcases List.prefix_or_prefix_of_prefix hp (List.prefix_append _ _) with hin | ⟨q, rfl⟩
      · by_cases hall : p = c.encode a
        · subst hall
          refine ⟨[a], by simp, [], by simp, ?_⟩
          have : Nonempty α := ⟨a⟩
          exact c.decode_nil
        · exact ⟨[], List.nil_prefix, .nil_of_eof (c.decode_cut hin hall)⟩
      · have hq := (List.prefix_append_right_inj _).mp hp
        obtain ⟨as', hpre, hholds⟩ := ih ⟨tail, rfl, heof⟩ hq
        exact ⟨a :: as', (List.prefix_cons_inj a).mpr hpre, hholds.cons⟩

/-- A longer stream holds at least the values of a shorter one. -/
theorem Holds.mono {p bs : List β} {as' as : List α} (hp : p <+: bs)
    (h' : c.Holds p as') (h : c.Holds bs as) : as' <+: as := by
  obtain ⟨as'', hpre, hholds⟩ := h.of_isPrefix hp
  rwa [h'.unique hholds]

/-! ## The read loop -/

variable (c) {σ : Type*}

/-- Read values one by one into an accumulator until the input runs out. -/
def readLoop (f : σ → α → σ) : Nat → σ → List β → Except ε σ
  | 0, s, _ => .ok s
  | fuel + 1, s, bs =>
      match c.decode bs with
      | .value a rest => readLoop f fuel (f s a) rest
      | .eof => .ok s
      | .invalid e => .error e

/-- The read loop with enough fuel for the whole input: each value takes at
least one symbol. -/
def readAll (f : σ → α → σ) (s : σ) (bs : List β) : Except ε σ :=
  c.readLoop f (bs.length + 1) s bs

/-- With enough fuel the loop folds over all values. -/
theorem readLoop_of_holds {f : σ → α → σ} {bs : List β} {as : List α} (h : c.Holds bs as) :
    ∀ {fuel : Nat} {s : σ}, bs.length < fuel → c.readLoop f fuel s bs = .ok (as.foldl f s) := by
  induction as generalizing bs with
  | nil =>
      intro fuel s hfuel
      obtain ⟨tail, rfl, heof⟩ := h
      cases fuel with
      | zero => omega
      | succ fuel => simp [readLoop, heof]
  | cons a as ih =>
      intro fuel s hfuel
      obtain ⟨tail, rfl, heof⟩ := h
      cases fuel with
      | zero => omega
      | succ fuel =>
          rw [encodeAll_cons, List.append_assoc] at hfuel ⊢
          have hpos : 0 < (c.encode a).length := List.length_pos_of_ne_nil (c.encode_ne_nil a)
          rw [List.length_append] at hfuel
          simp only [readLoop, c.decode_encode_append, List.foldl_cons]
          exact ih ⟨tail, rfl, heof⟩ (by omega)

/-- What the loop returns is such a fold. -/
theorem holds_of_readLoop {f : σ → α → σ} :
    ∀ {fuel : Nat} {bs : List β} {s t : σ}, bs.length < fuel →
      c.readLoop f fuel s bs = .ok t → ∃ as, c.Holds bs as ∧ t = as.foldl f s := by
  intro fuel
  induction fuel with
  | zero => intro bs s t hfuel; omega
  | succ fuel ih =>
      intro bs s t hfuel hread
      cases hd : c.decode bs with
      | value a rest =>
          simp only [readLoop, hd] at hread
          have hbs := c.decode_sound hd
          have hpos : 0 < (c.encode a).length := List.length_pos_of_ne_nil (c.encode_ne_nil a)
          have hlen : rest.length < fuel := by
            rw [hbs, List.length_append] at hfuel
            omega
          obtain ⟨as, hholds, rfl⟩ := ih hlen hread
          exact ⟨a :: as, hbs ▸ hholds.cons, rfl⟩
      | eof =>
          simp only [readLoop, hd, Except.ok.injEq] at hread
          exact ⟨[], .nil_of_eof hd, hread.symm⟩
      | invalid e => simp [readLoop, hd] at hread

/-- The read loop succeeds exactly on streams of values with a torn tail, and
then has read all of these values. -/
theorem readAll_eq_ok_iff {f : σ → α → σ} {s t : σ} {bs : List β} :
    c.readAll f s bs = .ok t ↔ ∃ as, c.Holds bs as ∧ t = as.foldl f s := by
  constructor
  · exact c.holds_of_readLoop (Nat.lt_succ_self _)
  · rintro ⟨as, hholds, rfl⟩
    exact c.readLoop_of_holds hholds (Nat.lt_succ_self _)

theorem foldl_push (out as : List α) : as.foldl (fun out a => out ++ [a]) out = out ++ as := by
  induction as generalizing out with
  | nil => simp
  | cons a as ih => simp [ih]

/-- A loop that pushes every value returns the values of the stream. -/
theorem readAll_push_eq_ok_iff {bs : List β} {as : List α} :
    c.readAll (fun out a => out ++ [a]) [] bs = .ok as ↔ c.Holds bs as := by
  simp only [readAll_eq_ok_iff, foldl_push, List.nil_append]
  constructor
  · rintro ⟨as', hholds, rfl⟩
    exact hholds
  · exact fun hholds => ⟨as, hholds, rfl⟩

/-- The values of a readable stream. -/
def values (bs : List β) : List α :=
  match c.readAll (fun out a => out ++ [a]) [] bs with
  | .ok as => as
  | .error _ => []

/-- The values are those that the input holds. -/
theorem values_of_holds {bs : List β} {as : List α} (h : c.Holds bs as) : c.values bs = as := by
  rw [values, c.readAll_push_eq_ok_iff.mpr h]

variable {c} in
/-- A part of a readable stream holds the first of its values. -/
theorem Holds.values_isPrefix {p bs : List β} {as : List α} (h : c.Holds bs as) (hp : p <+: bs) :
    c.values p <+: c.values bs := by
  obtain ⟨as', hpre, hholds⟩ := h.of_isPrefix hp
  rwa [c.values_of_holds hholds, c.values_of_holds h]

variable {c} in
/-- A part of some values behind a clean stream adds the first of these values. -/
theorem Clean.values_append [Nonempty α] {bs more : List β} {as : List α} (h : c.Clean bs)
    (hmore : more <+: c.encodeAll as) :
    ∃ as', as' <+: as ∧ c.values (bs ++ more) = c.values bs ++ as' := by
  obtain ⟨bs', rfl⟩ := h
  obtain ⟨as', hpre, hholds⟩ := (holds_encodeAll as).of_isPrefix hmore
  refine ⟨as', hpre, ?_⟩
  rw [c.values_of_holds (Holds.append hholds), c.values_of_holds (holds_encodeAll bs')]

/-- A clean stream is the encoding of its own values. -/
theorem clean_iff [Nonempty α] {bs : List β} : c.Clean bs ↔ c.encodeAll (c.values bs) = bs := by
  constructor
  · rintro ⟨as, rfl⟩
    rw [c.values_of_holds (holds_encodeAll as)]
  · exact fun h => ⟨c.values bs, h.symm⟩

instance decidableClean [Nonempty α] [DecidableEq β] (bs : List β) : Decidable (c.Clean bs) :=
  decidable_of_iff _ c.clean_iff.symm

/-! ## Cut streams -/

/-- The values whose encodings end at or before symbol `n`. -/
def endingBy (n : Nat) (as : List α) : List α :=
  (as.zipIdx.filter fun e => (c.encodeAll (as.take (e.2 + 1))).length ≤ n).map Prod.fst

/-- Numbering a list numbers its front and what is behind it. -/
theorem zipIdx_split (k : Nat) (l : List α) :
    l.zipIdx = (l.take k).zipIdx ++ (l.drop k).zipIdx (l.take k).length := by
  conv_lhs => rw [← List.take_append_drop k l, List.zipIdx_append]
  simp

/-- The numbers behind the front are not those of the front. -/
theorem le_of_mem_zipIdx_drop {k : Nat} {l : List α} {e : α × Nat}
    (he : e ∈ (l.drop k).zipIdx (l.take k).length) : k ≤ e.2 := by
  have hle := List.le_snd_of_mem_zipIdx he
  have hlt := List.snd_lt_add_of_mem_zipIdx he
  simp only [List.length_take, List.length_drop] at hle hlt
  omega

/-- Selecting the elements below a position is taking them. -/
theorem map_fst_filter_zipIdx {l : List α} {p : Nat → Bool} {k : Nat}
    (h : ∀ i < l.length, p i = true ↔ i < k) :
    (l.zipIdx.filter fun e => p e.2).map Prod.fst = l.take k := by
  have hfirst : (l.take k).zipIdx.filter (fun e => p e.2) = (l.take k).zipIdx := by
    rw [List.filter_eq_self]
    intro e he
    have hlt := List.snd_lt_of_mem_zipIdx he
    rw [List.length_take] at hlt
    exact (h e.2 (by omega)).mpr (by omega)
  have hrest : ((l.drop k).zipIdx (l.take k).length).filter (fun e => p e.2) = [] := by
    rw [List.filter_eq_nil_iff]
    intro e he hp
    have hle := le_of_mem_zipIdx_drop he
    have hlt := List.snd_lt_add_of_mem_zipIdx he
    simp only [List.length_take, List.length_drop] at hlt
    have hk := (h e.2 (by omega)).mp hp
    omega
  rw [zipIdx_split k l, List.filter_append, hfirst, hrest, List.append_nil, List.zipIdx_map_fst]

/-- A clean stream that is cut holds the values that end before the cut. -/
theorem holds_take [Nonempty α] (as : List α) (n : Nat) :
    c.Holds ((c.encodeAll as).take n) (c.endingBy n as) := by
  obtain ⟨as', ⟨more, rfl⟩, hholds⟩ := (holds_encodeAll as).of_isPrefix (List.take_prefix n _)
  have hends : ∀ i < (as' ++ more).length,
      decide ((c.encodeAll ((as' ++ more).take (i + 1))).length ≤ n) = true ↔ i < as'.length := by
    intro i hi
    rw [decide_eq_true_iff]
    constructor
    · intro hle
      -- The first `i + 1` values are in front of the cut, so they are read.
      have hfront : c.encodeAll ((as' ++ more).take (i + 1)) <+: c.encodeAll (as' ++ more) := by
        refine ⟨c.encodeAll ((as' ++ more).drop (i + 1)), ?_⟩
        rw [← encodeAll_append, List.take_append_drop]
      have hcut := List.prefix_take_iff.mpr ⟨hfront, hle⟩
      have hread := (Holds.mono hcut (holds_encodeAll _) hholds).length_le
      rw [List.length_take] at hread
      omega
    · intro hlt
      obtain ⟨tail, hcut, -⟩ := hholds
      have hlen := congrArg List.length hcut
      rw [List.length_take, List.length_append] at hlen
      have hsub : (c.encodeAll ((as' ++ more).take (i + 1))).length ≤ (c.encodeAll as').length := by
        rw [List.take_append_of_le_length hlt]
        conv_rhs => rw [← List.take_append_drop (i + 1) as', encodeAll_append, List.length_append]
        exact Nat.le_add_right _ _
      omega
  rw [endingBy, map_fst_filter_zipIdx hends, List.take_left]
  exact hholds

/-! ## Building codecs -/

/-- Values of one codec followed by values of another. -/
def seq (d : StreamCodec ε γ β) : StreamCodec ε (α × γ) β where
  encode p := c.encode p.1 ++ d.encode p.2
  decode bs := (c.decode bs).bind fun a rest => (d.decode rest).map (Prod.mk a)
  encode_ne_nil p := by simp [c.encode_ne_nil]
  decode_encode p := by
    simp only [c.decode_encode_append, Decoded.bind, d.decode_encode, Decoded.map]
  decode_sound := by
    intro bs p rest h
    obtain ⟨a, r, ha, hd⟩ := Decoded.bind_eq_value_iff.mp h
    obtain ⟨b, hb, rfl⟩ := Decoded.map_eq_value_iff.mp hd
    rw [c.decode_sound ha, d.decode_sound hb, List.append_assoc]
  decode_stable := by
    intro bs more hne
    cases ha : c.decode bs with
    | value a r =>
        have hext := c.decode_stable bs more (by rw [ha]; exact fun h => by cases h)
        rw [ha] at hne hext
        simp only [Decoded.bind, Decoded.extend] at hne hext
        rw [hext]
        simp only [Decoded.bind]
        cases hb : d.decode r with
        | value b r' =>
            rw [d.decode_stable r more (by rw [hb]; exact fun h => by cases h), hb]
            rfl
        | eof => rw [hb] at hne; exact absurd rfl hne
        | invalid e =>
            rw [d.decode_stable r more (by rw [hb]; exact fun h => by cases h), hb]
            rfl
    | eof => rw [ha] at hne; exact absurd rfl hne
    | invalid e =>
        rw [c.decode_stable bs more (by rw [ha]; exact fun h => by cases h), ha]
        rfl

/-- The same codec for an equivalent type. -/
def congr (e : α ≃ γ) : StreamCodec ε γ β where
  encode x := c.encode (e.symm x)
  decode bs := (c.decode bs).map e
  encode_ne_nil x := c.encode_ne_nil _
  decode_encode x := by simp [c.decode_encode, Decoded.map, Decoded.bind]
  decode_sound := by
    intro bs x rest h
    obtain ⟨a, ha, rfl⟩ := Decoded.map_eq_value_iff.mp h
    rw [e.symm_apply_apply]
    exact c.decode_sound ha
  decode_stable := by
    intro bs more hne
    have hne' : c.decode bs ≠ .eof := fun h => hne (by rw [h]; rfl)
    rw [c.decode_stable bs more hne']
    cases c.decode bs with
    | value a r => rfl
    | eof => rfl
    | invalid e => rfl

end StreamCodec
end Foundation
end Greplog
