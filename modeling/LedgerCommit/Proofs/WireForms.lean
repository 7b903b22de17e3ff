import LedgerCommit.Proofs.HexText
import LedgerCommit.Wire.Voting
import Mathlib.Data.List.Forall2

/-!
# Values survive the wire

The wire form of a value is read back as this value, with every field of it,
whatever the order in which the fields of objects come at any depth. So no two
values have one form. What is shown of a type is shown from the types of its
fields: a record is read from any object that holds the forms of its fields
under their names.
-/

namespace LedgerCommit

/-- Documents that differ at most in the order of fields, at any depth. -/
inductive Json.Alike : Json → Json → Prop where
  | same (j : Json) : Alike j j
  | arr {items items' : List Json} : List.Forall₂ Alike items items' →
      Alike (.arr items) (.arr items')
  /-- The names are the same in some order, and fields of one name are alike. -/
  | obj {fields fields' : List (String × Json)} :
      (fields.map Prod.fst).Perm (fields'.map Prod.fst) →
      (∀ name j j', (name, j) ∈ fields → (name, j') ∈ fields' → Alike j j') →
      Alike (.obj fields) (.obj fields')

namespace Wire

variable {α : Type} [Wire α]

/-- The values of a type are read back from their forms. -/
class Faithful (α : Type) [Wire α] : Prop where
  decode_of_alike : ∀ (x : α) (j : Json), (encode x).Alike j → decode j = .ok x

export Faithful (decode_of_alike)

@[simp]
theorem ok_bind {ε β γ : Type} (x : β) (f : β → Except ε γ) : (Except.ok x >>= f) = f x := rfl

/-! ## Plain values -/

theorem eq_of_alike_num {m : Int} {d : Nat} {j : Json} (h : Json.Alike (.num m d) j) :
    j = .num m d := by
  cases h
  rfl

theorem eq_of_alike_str {s : String} {j : Json} (h : Json.Alike (.str s) j) : j = .str s := by
  cases h
  rfl

theorem natBelow_of_alike {bound n : Nat} {j : Json} (hn : n < bound)
    (h : Json.Alike (.nat n) j) : natBelow bound j = .ok n := by
  rw [eq_of_alike_num h]
  exact if_pos hn

instance : Faithful UInt64 where
  decode_of_alike w j h := by
    show (natBelow UInt64.size j).map UInt64.ofNat = .ok w
    rw [natBelow_of_alike w.toNat_lt h]
    exact congrArg Except.ok w.ofNat_toNat

instance : Faithful UInt8 where
  decode_of_alike w j h := by
    show (natBelow UInt8.size j).map UInt8.ofNat = .ok w
    rw [natBelow_of_alike w.toNat_lt h]
    exact congrArg Except.ok w.ofNat_toNat

instance : Faithful String where
  decode_of_alike s j h := by
    rw [eq_of_alike_str h]
    rfl

theorem mapM_decode [Faithful α] {xs : List α} {items : List Json}
    (h : List.Forall₂ Json.Alike (xs.map encode) items) :
    items.mapM (decode : Json → Except WireError α) = .ok xs := by
  induction xs generalizing items with
  | nil =>
      cases h
      rfl
  | cons x xs ih =>
      cases h with
      | cons hx hrest =>
          rw [List.mapM_cons, decode_of_alike x _ hx, ih hrest]
          rfl

instance [Faithful α] : Faithful (List α) where
  decode_of_alike xs j h := by
    cases h with
    | same => exact mapM_decode (List.forall₂_same.mpr fun _ _ => .same _)
    | arr hitems => exact mapM_decode hitems

/-- Where no form is `null`, nothing can be told from something. -/
theorem faithful_option [Faithful α] (hnull : ∀ x : α, encode x ≠ .null) : Faithful (Option α) where
  decode_of_alike x j h := by
    cases x with
    | none =>
        cases h
        rfl
    | some x =>
        have hj : j ≠ .null := by
          rintro rfl
          generalize hform : (encode (some x) : Json) = form at h
          cases h
          exact hnull x hform
        have hx : decode j = .ok x := decode_of_alike x j h
        cases j with
        | null => exact absurd rfl hj
        | bool _ | num _ _ | str _ | arr _ | obj _ =>
            show (decode _ : Except WireError α).map some = .ok (some x)
            rw [hx]
            rfl

/-- The bytes that are read, if they are in the right number. -/
theorem decode_bytes {n : Nat} (b : Bytes n) {j : Json}
    (h : (decode j : Except WireError (List UInt8)) = .ok b.toList) :
    (decode j : Except WireError (Bytes n)) = .ok b := by
  show (decode j : Except WireError (List UInt8)) >>= _ = _
  rw [h, ok_bind, Bytes.ofList?_toList]
  rfl

instance {n : Nat} : Faithful (Bytes n) where
  decode_of_alike b j h := decode_bytes b (decode_of_alike b.toList j h)

/-! ## Records -/

theorem entry?_of_mem {β : Type} {entries : List (String × β)} {name : String} {x : β}
    (hnames : (entries.map Prod.fst).Nodup) (h : (name, x) ∈ entries) :
    entry? name entries = some x := by
  induction entries with
  | nil => cases h
  | cons entry entries ih =>
      rw [List.map_cons, List.nodup_cons] at hnames
      have hrest := ih hnames.2
      unfold entry? at hrest ⊢
      rcases List.mem_cons.mp h with rfl | hmem
      · simp
      · have hne : entry.1 ≠ name := fun heq =>
          hnames.1 (heq ▸ List.mem_map_of_mem (f := Prod.fst) hmem)
        simpa [hne] using hrest hmem

/-- The field takes every document that is like this one. -/
def Field.Takes (f : Field) (j : Json) : Prop := ∀ j', j.Alike j' → f.check j' = .ok ()

@[simp]
theorem field_name (name : String) : (field α name).name = name := rfl

@[simp]
theorem field_takes [Faithful α] (name : String) (x : α) : (field α name).Takes (encode x) := by
  intro j h
  show (decode j : Except WireError α).map _ = _
  rw [decode_of_alike x j h]
  rfl

theorem checkObject_eq_ok {fields : List Field} {found : Found}
    (h : ∀ f ∈ fields, ∀ j, (f.name, j) ∈ found → f.check j = .ok ()) :
    checkObject fields found = .ok () := by
  induction found with
  | nil => rfl
  | cons entry found ih =>
      obtain ⟨name, j⟩ := entry
      have hrest := ih fun f hf j' hj' => h f hf j' (List.mem_cons_of_mem _ hj')
      rw [checkObject]
      cases hfind : fields.find? (·.name = name) with
      | none => exact hrest
      | some f =>
          have hname : f.name = name := by simpa using List.find?_some hfind
          have hcheck := h f (List.mem_of_find?_eq_some hfind) j (by rw [hname]; simp)
          show (f.check j >>= fun _ => checkObject fields found) = _
          rw [hcheck, ok_bind, hrest]

/-- An object that is like the one with these fields holds documents that are
like them under their names, and no others. -/
theorem found_of_alike {fields : List (String × Json)} {j : Json}
    (hnames : (fields.map Prod.fst).Nodup) (h : Json.Alike (.obj fields) j) :
    ∃ found, j = .obj found
      ∧ (∀ name e, (name, e) ∈ fields → ∃ e', entry? name found = some e' ∧ e.Alike e')
      ∧ ∀ name e', (name, e') ∈ found → ∃ e, (name, e) ∈ fields ∧ e.Alike e' := by
  cases h with
  | same =>
      exact ⟨fields, rfl, fun name e he => ⟨e, entry?_of_mem hnames he, .same e⟩,
        fun name e he => ⟨e, he, .same e⟩⟩
  | @obj _ found hperm halike =>
      have hfound : (found.map Prod.fst).Nodup := hperm.nodup hnames
      refine ⟨found, rfl, fun name e he => ?_, fun name e' he' => ?_⟩
      · obtain ⟨⟨_, e'⟩, he', rfl⟩ :=
          List.mem_map.mp (hperm.mem_iff.mp (List.mem_map_of_mem (f := Prod.fst) he))
        exact ⟨e', entry?_of_mem hfound he', halike _ e e' he he'⟩
      · obtain ⟨⟨_, e⟩, he, rfl⟩ :=
          List.mem_map.mp (hperm.mem_iff.mpr (List.mem_map_of_mem (f := Prod.fst) he'))
        exact ⟨e, he, halike _ e e' he he'⟩

/-- A record is read from every object that holds its fields, in any order. -/
theorem readRecord_of_alike (spec : List Field) {fields : List (String × Json)} {j : Json}
    (optional : Nat) (hnames : (fields.map Prod.fst).Nodup)
    (htakes : ∀ f ∈ spec, ∀ e, (f.name, e) ∈ fields → f.Takes e)
    (h : Json.Alike (.obj fields) j) :
    ∃ found, readRecord spec j optional = .ok found
      ∧ ∀ name e, (name, e) ∈ fields → ∃ e', entry? name found = some e' ∧ e.Alike e' := by
  obtain ⟨found, rfl, hentry, hall⟩ := found_of_alike hnames h
  have hcheck : checkObject spec found = .ok () := by
    refine checkObject_eq_ok fun f hf e' he' => ?_
    obtain ⟨e, he, halike⟩ := hall f.name e' he'
    exact htakes f hf e he e' halike
  refine ⟨found, ?_, hentry⟩
  show (checkObject spec found >>= fun _ => pure found) = _
  rw [hcheck, ok_bind]
  rfl

theorem required_of_entry [Faithful α] {x : α} {name : String} {found : Found}
    (h : ∃ e', entry? name found = some e' ∧ (encode x).Alike e') :
    required α name found = .ok x := by
  obtain ⟨e', hentry, halike⟩ := h
  rw [required, hentry]
  exact decode_of_alike x e' halike

theorem orDefault_of_entry [Faithful α] {x default : α} {name : String} {found : Found}
    (h : ∃ e', entry? name found = some e' ∧ (encode x).Alike e') :
    orDefault name default found = .ok x := by
  obtain ⟨e', hentry, halike⟩ := h
  rw [orDefault, hentry]
  exact decode_of_alike x e' halike

/-- A record of two fields is read from their forms. -/
theorem decode_two {β γ : Type} [Wire β] [Faithful α] [Faithful β] (make : α → β → γ)
    {x : α} {y : β} {a b : String} {fields : List (String × Json)} {j : Json} (hne : a ≠ b)
    (hfields : fields.Perm [(a, encode x), (b, encode y)]) (h : Json.Alike (.obj fields) j) :
    (do
      let f ← readRecord [field α a, field β b] j 0
      return make (← required α a f) (← required β b f)) = .ok (make x y) := by
  have hnames : (fields.map Prod.fst).Nodup :=
    (hfields.map Prod.fst).nodup_iff.mpr (by simpa using hne)
  obtain ⟨found, hread, hentry⟩ := readRecord_of_alike [field α a, field β b] 0 hnames
    (by simp [hfields.mem_iff, hne, hne.symm]) h
  have hx : required α a found = .ok x :=
    required_of_entry (hentry a _ (hfields.mem_iff.mpr (by simp)))
  have hy : required β b found = .ok y :=
    required_of_entry (hentry b _ (hfields.mem_iff.mpr (by simp)))
  rw [hread, ok_bind, hx, ok_bind, hy]
  rfl

end Wire

/-! ## Hashes, keys and signatures -/

open Wire

instance : Faithful Hash where
  decode_of_alike x j h := by
    show (decode j : Except WireError (Bytes 32)).map Hash.mk = .ok x
    rw [decode_of_alike x.bytes j h]
    rfl

/-- What is printed as text and read back is faithful as text on the wire. -/
theorem Wire.decodeHex_of_alike {α : Type} (ofHex : String → Except Hex.ParseError α) {s : String}
    {x : α} {j : Json} (hread : ofHex s = .ok x) (h : Json.Alike (.str s) j) :
    decodeHex ofHex j = .ok x := by
  rw [eq_of_alike_str h]
  show (ofHex s).mapError WireError.hex = .ok x
  rw [hread]
  rfl

instance : Faithful PublicKey where
  decode_of_alike x _ h := by
    refine decodeHex_of_alike PublicKey.ofHex ?_ h
    rw [PublicKey.ofHex, PublicKey.toHex, Hex.parse_encode]
    rfl

instance : Faithful Signature where
  decode_of_alike x _ h := by
    refine decodeHex_of_alike Signature.ofHex ?_ h
    rw [Signature.ofHex, Signature.toHex, Hex.parse_encode]
    rfl

/-! ## Records of the chain -/

instance : Faithful Round where
  decode_of_alike _ _ h := decode_two Round.mk (by decide) (.refl _) h

instance : Faithful Seal where
  decode_of_alike _ _ h := decode_two Seal.mk (by decide) (.refl _) h

instance : Faithful Peer where
  decode_of_alike _ _ h := decode_two Peer.mk (by decide) (.refl _) h

instance : Faithful Tip where
  decode_of_alike _ _ h := decode_two Tip.mk (by decide) (.refl _) h

instance : Faithful Ledger where
  decode_of_alike _ _ h := decode_two Ledger.mk (by decide) (.refl _) h

instance : Faithful Choice where
  decode_of_alike _ _ h := decode_two Choice.mk (by decide) (.swap _ _ _) h

instance : Faithful Block where
  decode_of_alike x j h := by
    obtain ⟨found, hread, hentry⟩ := readRecord_of_alike [
      field UInt64 "height", field Hash "prev_hash", field UInt64 "created_time",
      field (List UInt8) "payload", field Hash "hash", field (List Seal) "signatures"] 0
      (by simp) (by simp) h
    have hheight : required UInt64 "height" found = .ok x.height :=
      required_of_entry (hentry _ _ (by simp))
    have hprev : required Hash "prev_hash" found = .ok x.prev :=
      required_of_entry (hentry _ _ (by simp))
    have htime : required UInt64 "created_time" found = .ok x.time :=
      required_of_entry (hentry _ _ (by simp))
    have hpayload : required (List UInt8) "payload" found = .ok x.payload :=
      required_of_entry (hentry _ _ (by simp))
    have hhash : required Hash "hash" found = .ok x.hash :=
      required_of_entry (hentry _ _ (by simp))
    have hseals : required (List Seal) "signatures" found = .ok x.seals :=
      required_of_entry (hentry _ _ (by simp))
    show readRecord _ j 0 >>= _ = _
    rw [hread, ok_bind, hheight, ok_bind, hprev, ok_bind, htime, ok_bind, hpayload, ok_bind,
      hhash, ok_bind, hseals]
    rfl

/-! ## Votes and outcomes -/

instance : Faithful (Option Seal) := faithful_option fun x h => by cases h

instance : Faithful Ballot where
  decode_of_alike x j h := by
    obtain ⟨found, hread, hentry⟩ := readRecord_of_alike [
      field Round "vote_round", field Choice "vote_hashes",
      field (Option Seal) "block_signature"] 0 (by simp) (by simp) h
    have hround : required Round "vote_round" found = .ok x.round :=
      required_of_entry (hentry _ _ (by simp))
    have hchoice : required Choice "vote_hashes" found = .ok x.choice :=
      required_of_entry (hentry _ _ (by simp))
    have hseal : orDefault "block_signature" none found = .ok x.blockSeal :=
      orDefault_of_entry (hentry _ _ (by simp))
    show readRecord _ j 0 >>= _ = _
    rw [hread, ok_bind, hround, ok_bind, hchoice, ok_bind, hseal]
    rfl

instance : Faithful Vote where
  decode_of_alike _ _ h := decode_two Vote.mk (by decide) (.refl _) h

theorem entry?_name (e : Ending) : entry? e.name Ending.names = some e := by
  cases e <;> rfl

/-- An object that is like one with a single field has this field alone. -/
theorem Wire.eq_singleton_of_alike {name : String} {e j : Json}
    (h : Json.Alike (.obj [(name, e)]) j) : ∃ e', j = .obj [(name, e')] ∧ e.Alike e' := by
  cases h with
  | same => exact ⟨e, rfl, .same e⟩
  | @obj _ found hperm halike =>
      obtain ⟨⟨name', e'⟩, rfl, rfl⟩ :=
        List.map_eq_singleton_iff.mp (List.singleton_perm.mp hperm).symm
      exact ⟨e', rfl, halike name' e e' List.mem_cons_self List.mem_cons_self⟩

instance : Faithful Outcome where
  decode_of_alike x j h := by
    obtain ⟨e, rfl, hvotes⟩ := eq_singleton_of_alike h
    obtain ⟨found, hread, hentry⟩ := readRecord_of_alike [field (List Vote) "votes"] 0
      (by simp) (by simp) hvotes
    have hvotes : required (List Vote) "votes" found = .ok x.votes :=
      required_of_entry (hentry _ _ (by simp))
    show (match entry? x.ending.name Ending.names with
      | none => throw .shape
      | some ending => do
          let f ← readRecord [field (List Vote) "votes"] e 0
          return ⟨ending, ← required _ "votes" f⟩) = (.ok x : Except WireError Outcome)
    rw [entry?_name]
    show readRecord _ e 0 >>= _ = _
    rw [hread, ok_bind, hvotes]
    rfl

/-! ## All types of values -/

/-- Forms determine values: the form of a value is read back as this value, in
whatever order the fields of its objects come, and no two values share a form. -/
structure Wire.Survives (α : Type) [Wire α] : Prop where
  decode_encode : ∀ x : α, decode (encode x) = .ok x
  decode_reordered : ∀ (x : α) (j : Json), (encode x).Alike j → decode j = .ok x
  encode_injective : Function.Injective (encode : α → Json)

theorem Wire.survives (α : Type) [Wire α] [Faithful α] : Survives α where
  decode_encode x := decode_of_alike x _ (.same _)
  decode_reordered := decode_of_alike
  encode_injective x y h := by
    have hx : decode (encode y) = .ok x := decode_of_alike x _ (h ▸ .same _)
    have hy : decode (encode y) = .ok y := decode_of_alike y _ (.same _)
    exact Except.ok.inj (hx.symm.trans hy)

/-- **All values survive the wire.** Hashes, rounds, keys, signatures, seals,
blocks, peers, tips, ledgers, choices, ballots, votes and outcomes are read
back from their forms as they were, with every field: also the seal that a
ballot carries, which does not matter for whether two ballots agree. -/
theorem values_survive_the_wire :
    Survives Hash ∧ Survives Round ∧ Survives PublicKey ∧ Survives Signature ∧ Survives Seal
      ∧ Survives Block ∧ Survives Peer ∧ Survives Tip ∧ Survives Ledger ∧ Survives Choice
      ∧ Survives Ballot ∧ Survives Vote ∧ Survives Outcome :=
  ⟨survives Hash, survives Round, survives PublicKey, survives Signature, survives Seal,
    survives Block, survives Peer, survives Tip, survives Ledger, survives Choice,
    survives Ballot, survives Vote, survives Outcome⟩

end LedgerCommit
