/-
# Building resources from the wire form and from configuration

`NewResourceFromProto` copies the map of an `si.Resource` into a new resource,
reading `v.Value` through each `*si.Quantity` pointer; it guards a `nil`
resource but not a `nil` quantity, which `encoding/json` produces for a JSON
`null`. A Go panic is the error side of `Except Fault`, and
`newResourceFromString` takes what `json.Unmarshal` returns.

The loop faults exactly when some pointer is `nil` (`newResourceFromProto_spec`),
so both decoders fault on a `nil` quantity (`newResourceFromProto_nil_quantity`).
`ToProto` is the encoder (`lookup_toProto`): encoding then decoding gives the
resource back (`newResourceFromProto_toProto`), and decoding a map without
`nil` pointers then encoding gives the map back (`toProto_newResourceFromProto`).
`NewResourceFromConf` parses each value, `ParseVCore` for the CPU type and
`ParseQuantity` for the others, and in every iteration order returns the parsed
resource or the error of a value that does not parse (`newResourceFromConf_spec`).

Key definitions: `ProtoResource`, `Fault`, `newResourceFromProto`, `newResourceFromString`,
`toProto`, `daoMap`, `confStep`, `newResourceFromConf`, `ConfResult`.
Key theorems: `newResourceFromProto_spec`, `newResourceFromProto_nil_quantity`,
`newResourceFromProto_toProto`, `toProto_newResourceFromProto`, `newResourceFromConf_spec`.
-/
import Yunikorn.Equality

namespace Resources

open Resource

/-- The wire form `si.Resource`: a `map[string]*si.Quantity`, a `nil` pointer
being `none`; an `si.Quantity` holds the `int64` `Value`. -/
structure ProtoResource where
  resources : AList fun _ : String => Option Quantity

/-- A run-time panic of the Go code: here the dereference of a `nil` pointer. -/
inductive Fault where
  | nilDereference
deriving DecidableEq, Repr

/-- One iteration of the loop of `NewResourceFromProto`: `v.Value` faults on a
`nil` pointer, and otherwise its value is written at `k`. -/
def protoStep (out : Resource) (e : Σ _ : String, Option Quantity) : Except Fault Resource :=
  match e.2 with
  | none => .error .nilDereference
  | some v => .ok (out.set e.1 v)

/-- `NewResourceFromProto`: an empty resource for a `nil` proto, otherwise each
entry of the proto copied in. -/
def newResourceFromProto : Option ProtoResource → Except Fault Resource
  | none => .ok newResource
  | some proto => proto.resources.entries.foldlM protoStep newResource

/-- `NewResourceFromString`, from what `json.Unmarshal` made of the string: its
error, or `NewResourceFromProto` of the decoded pointer. The outer `Except` is
a panic, the inner one the returned `error`. -/
def newResourceFromString (unmarshalled : Except String (Option ProtoResource)) :
    Except Fault (Except String Resource) :=
  match unmarshalled with
  | .error err => .ok (.error err)
  | .ok siRes => (newResourceFromProto siRes).map .ok

/-! ### The loop -/

theorem foldlM_protoStep_error :
    ∀ (es : List (Σ _ : String, Option Quantity)) (out : Resource),
      (∃ e ∈ es, e.2 = none) → es.foldlM protoStep out = .error .nilDereference
  | [], _, ⟨_, h, _⟩ => absurd h (List.not_mem_nil _)
  | ⟨_, none⟩ :: _, _, _ => rfl
  | ⟨k, some v⟩ :: es, out, ⟨e, he, hnil⟩ => by
    have he : e ∈ es := (List.mem_cons.mp he).resolve_left fun h => by simp [h] at hnil
    exact foldlM_protoStep_error es (out.set k v) ⟨e, he, hnil⟩

theorem foldlM_protoStep_ok :
    ∀ (es : List (Σ _ : String, Option Quantity)) (out : Resource), es.NodupKeys →
      (∀ e ∈ es, e.2 ≠ none) → ∃ res, es.foldlM protoStep out = .ok res ∧
        ∀ k, res.resources.lookup k = ((es.dlookup k).join <|> out.resources.lookup k)
  | [], out, _, _ => ⟨out, rfl, fun k => rfl⟩
  | ⟨_, none⟩ :: _, _, _, h => absurd rfl (h _ (List.mem_cons_self _ _))
  | ⟨k', some v⟩ :: es, out, hnd, h => by
    obtain ⟨hk', hnd⟩ := List.nodupKeys_cons.mp hnd
    obtain ⟨res, hres, hlook⟩ :=
      foldlM_protoStep_ok es (out.set k' v) hnd fun e he => h e (List.mem_cons_of_mem _ he)
    refine ⟨res, hres, fun k => ?_⟩
    rw [hlook]
    by_cases hk : k = k'
    · subst hk
      simp [List.dlookup_eq_none.mpr hk', List.dlookup_cons_eq, Resource.set, AList.lookup_insert]
    · simp [List.dlookup_cons_ne es ⟨k', some v⟩ hk, Resource.set, AList.lookup_insert_ne hk]

/-- **What `NewResourceFromProto` does.** A `nil` proto gives the empty
resource; otherwise the loop faults exactly when some pointer is `nil`, and
with none it returns a resource reading each name's value. -/
theorem newResourceFromProto_spec (p : ProtoResource) :
    newResourceFromProto none = .ok newResource ∧
    ((∃ k, p.resources.lookup k = some none) → newResourceFromProto (some p) = .error .nilDereference) ∧
    ((∀ k, p.resources.lookup k ≠ some none) →
      ∃ res, newResourceFromProto (some p) = .ok res ∧ ∀ k, res.resources.lookup k = (p.resources.lookup k).join) := by
  refine ⟨rfl, fun ⟨k, hk⟩ => ?_, fun h => ?_⟩
  · exact foldlM_protoStep_error _ _ ⟨⟨k, none⟩, AList.mem_lookup_iff.mp hk, rfl⟩
  · obtain ⟨res, hres, hlook⟩ := foldlM_protoStep_ok p.resources.entries newResource p.resources.nodupKeys
      fun e he hnil => h e.1 (AList.mem_lookup_iff.mpr (by rwa [← hnil]))
    refine ⟨res, hres, fun k => ?_⟩
    show _ = (p.resources.entries.dlookup k).join
    rw [hlook]
    cases (p.resources.entries.dlookup k).join <;> rfl

/-- **A `nil` quantity makes the decoders fault**: a `nil` pointer under any
name makes `NewResourceFromProto` dereference it, and `NewResourceFromString`
panics on every string that decodes to such a map. -/
theorem newResourceFromProto_nil_quantity (p : ProtoResource) (k : String) :
    newResourceFromProto (some ⟨p.resources.insert k none⟩) = .error .nilDereference ∧
    newResourceFromString (.ok (some ⟨p.resources.insert k none⟩)) = .error .nilDereference := by
  have h := (newResourceFromProto_spec ⟨p.resources.insert k none⟩).2.1 ⟨k, AList.lookup_insert _⟩
  exact ⟨h, by simp only [newResourceFromString, h]; rfl⟩

/-! ### The encoder and the round trips -/

/-- `ToProto`: an empty wire map for `nil`, otherwise each entry written as a
pointer to an `si.Quantity` holding its value. -/
def toProto : Option Resource → ProtoResource
  | none => ⟨∅⟩
  | some r => ⟨r.resources.entries.foldl (fun proto e => proto.insert e.1 (some e.2)) ∅⟩

theorem lookup_foldl_insert {β : Type} (f : Quantity → β) :
    ∀ (es : List (Σ _ : String, Quantity)) (m : AList fun _ : String => β), es.NodupKeys → ∀ k,
      (es.foldl (fun m e => m.insert e.1 (f e.2)) m).lookup k = ((es.dlookup k).map f <|> m.lookup k)
  | [], _, _, _ => rfl
  | ⟨k', v⟩ :: es, m, hnd, k => by
    obtain ⟨hk', hnd⟩ := List.nodupKeys_cons.mp hnd
    rw [List.foldl_cons, lookup_foldl_insert f es _ hnd k]
    by_cases hk : k = k'
    · subst hk
      simp [List.dlookup_eq_none.mpr hk', List.dlookup_cons_eq, AList.lookup_insert]
    · simp [List.dlookup_cons_ne es ⟨k', v⟩ hk, AList.lookup_insert_ne hk]

theorem lookup_toProto (r : Option Resource) (k : String) :
    (toProto r).resources.lookup k = ((orZero r).resources.lookup k).map some := by
  cases r with
  | none => rfl
  | some r => exact (lookup_foldl_insert some _ ∅ r.resources.nodupKeys k).trans (Option.orElse_none _)

/-- **Encoding then decoding gives the resource back.** `NewResourceFromProto`
of `ToProto` never faults, and returns a resource `DeepEquals` to the one
encoded, `nil` coming back as the empty resource. -/
theorem newResourceFromProto_toProto (r : Option Resource) :
    ∃ res, newResourceFromProto (some (toProto r)) = .ok res ∧ deepEquals (some res) (some (orZero r)) = true := by
  have hnil : ∀ k, (toProto r).resources.lookup k ≠ some none := fun k => by
    rw [lookup_toProto]; cases (orZero r).resources.lookup k <;> simp
  obtain ⟨res, hres, hlook⟩ := (newResourceFromProto_spec (toProto r)).2.2 hnil
  refine ⟨res, hres, (deepEquals_iff _ _).mpr fun k => ?_⟩
  rw [hlook, lookup_toProto]
  cases (orZero r).resources.lookup k <;> rfl

/-- **Decoding then encoding gives the wire map back**, for a map without
`nil` pointers. -/
theorem toProto_newResourceFromProto (p : ProtoResource) (h : ∀ k, p.resources.lookup k ≠ some none) :
    ∃ res, newResourceFromProto (some p) = .ok res ∧
      ∀ k, (toProto (some res)).resources.lookup k = p.resources.lookup k := by
  obtain ⟨res, hres, hlook⟩ := (newResourceFromProto_spec p).2.2 h
  refine ⟨res, hres, fun k => ?_⟩
  rw [lookup_toProto, orZero_some, hlook]
  match hk : p.resources.lookup k with
  | none => rfl
  | some none => exact absurd hk (h k)
  | some (some _) => rfl

theorem toProto_newResourceFromProto_one :
    let p : ProtoResource := ⟨(∅ : AList fun _ : String => Option Quantity).insert "x" (some ⟨1, by decide, by decide⟩)⟩
    (∀ k, p.resources.lookup k ≠ some none) ∧
      ∃ res, newResourceFromProto (some p) = .ok res ∧
        ∀ k, (toProto (some res)).resources.lookup k = p.resources.lookup k := by
  have h : ∀ k, ((∅ : AList fun _ : String => Option Quantity).insert "x"
      (some ⟨1, by decide, by decide⟩)).lookup k ≠ some none := fun k => by
    by_cases hk : k = "x"
    · subst hk; rw [AList.lookup_insert]; nofun
    · rw [AList.lookup_insert_ne hk]; nofun
  exact ⟨h, toProto_newResourceFromProto _ h⟩

/-- `DAOMap`: a new `map[string]int64` holding every entry of the resource,
empty for `nil`. -/
def daoMap : Option Resource → AList fun _ : String => ℤ
  | none => ∅
  | some r => r.resources.entries.foldl (fun res e => res.insert e.1 e.2.val) ∅

theorem lookup_daoMap (r : Option Resource) (k : String) :
    (daoMap r).lookup k = ((orZero r).resources.lookup k).map Quantity.val := by
  cases r with
  | none => rfl
  | some r => exact (lookup_foldl_insert Quantity.val _ ∅ r.resources.nodupKeys k).trans (Option.orElse_none _)

/-! ### Reading the configuration: `NewResourceFromConf`

`ParseQuantity`, `ParseVCore` and the name `common.CPU` are defined outside
`resources.go`: they are parameters. -/

/-- The parser `NewResourceFromConf` applies to one configured value:
`ParseVCore` for the CPU type (`common.CPU`), `ParseQuantity` for every
other type. -/
def parseConfValue (cpu : String) (parseVCore parseQuantity : String → Except String Quantity)
    (key strVal : String) : Except String Quantity :=
  if key = cpu then parseVCore strVal else parseQuantity strVal

/-- One iteration of the loop of `NewResourceFromConf`: a parse error ends the
loop with that error, and a parsed value is written at its type. -/
def confStep (cpu : String) (parseVCore parseQuantity : String → Except String Quantity)
    (res : Resource) (e : Σ _ : String, String) : Except String Resource :=
  match parseConfValue cpu parseVCore parseQuantity e.1 e.2 with
  | .error err => .error err
  | .ok intValue => .ok (res.set e.1 intValue)

/-- `NewResourceFromConf`: every configured value parsed into a new resource,
or the error of the first value that does not parse. -/
def newResourceFromConf (cpu : String) (parseVCore parseQuantity : String → Except String Quantity)
    (configMap : AList fun _ : String => String) : Except String Resource :=
  configMap.entries.foldlM (confStep cpu parseVCore parseQuantity) newResource

section Conf

variable (cpu : String) (parseVCore parseQuantity : String → Except String Quantity)

theorem foldlM_confStep_error :
    ∀ (es : List (Σ _ : String, String)) (out : Resource) (err : String),
      es.foldlM (confStep cpu parseVCore parseQuantity) out = .error err →
        ∃ e ∈ es, parseConfValue cpu parseVCore parseQuantity e.1 e.2 = .error err
  | [], _, _, h => nomatch h
  | e :: es, out, err, h => by
    rw [List.foldlM_cons] at h
    unfold confStep at h
    split at h
    · next err' hp => exact ⟨e, List.mem_cons_self _ _, hp.trans (by cases h; rfl)⟩
    · obtain ⟨e', he', hp⟩ := foldlM_confStep_error es _ err h
      exact ⟨e', List.mem_cons_of_mem _ he', hp⟩

theorem foldlM_confStep_isOk :
    ∀ (es : List (Σ _ : String, String)) (out : Resource),
      (∃ e ∈ es, ∃ err, parseConfValue cpu parseVCore parseQuantity e.1 e.2 = .error err) →
        ∃ err, es.foldlM (confStep cpu parseVCore parseQuantity) out = .error err
  | [], _, ⟨_, h, _⟩ => absurd h (List.not_mem_nil _)
  | e :: es, out, ⟨e', he', err', hp⟩ => by
    rw [List.foldlM_cons]
    unfold confStep
    split
    · next err _ => exact ⟨err, rfl⟩
    · next v hv =>
      rcases List.mem_cons.mp he' with rfl | he'
      · rw [hp] at hv; cases hv
      · exact foldlM_confStep_isOk es _ ⟨e', he', err', hp⟩

theorem foldlM_confStep_ok :
    ∀ (es : List (Σ _ : String, String)) (out : Resource), es.NodupKeys →
      (∀ e ∈ es, ∃ v, parseConfValue cpu parseVCore parseQuantity e.1 e.2 = .ok v) →
        ∃ res, es.foldlM (confStep cpu parseVCore parseQuantity) out = .ok res ∧
          ∀ k, res.resources.lookup k =
            (((es.dlookup k).bind fun s => (parseConfValue cpu parseVCore parseQuantity k s).toOption) <|>
              out.resources.lookup k)
  | [], out, _, _ => ⟨out, rfl, fun k => rfl⟩
  | ⟨k', s⟩ :: es, out, hnd, h => by
    obtain ⟨hk', hnd⟩ := List.nodupKeys_cons.mp hnd
    obtain ⟨v, hv⟩ := h _ (List.mem_cons_self _ _)
    obtain ⟨res, hres, hlook⟩ :=
      foldlM_confStep_ok es (out.set k' v) hnd fun e he => h e (List.mem_cons_of_mem _ he)
    refine ⟨res, ?_, fun k => ?_⟩
    · rw [List.foldlM_cons]
      unfold confStep
      rw [hv]
      exact hres
    · rw [hlook]
      by_cases hk : k = k'
      · subst hk
        simp [List.dlookup_eq_none.mpr hk', List.dlookup_cons_eq, Resource.set, AList.lookup_insert, hv,
          Except.toOption]
      · simp [List.dlookup_cons_ne es ⟨k', s⟩ hk, Resource.set, AList.lookup_insert_ne hk]

/-- What `NewResourceFromConf` is for: a resource holding the parsed value of
every configured type and no other type, when every value parses; otherwise
the error of a configured value that does not parse. -/
def ConfResult (configMap : AList fun _ : String => String) : Except String Resource → Prop
  | .ok res => ∀ k, (configMap.lookup k = none → res.resources.lookup k = none) ∧
      ∀ s, configMap.lookup k = some s →
        ∃ v, parseConfValue cpu parseVCore parseQuantity k s = .ok v ∧ res.resources.lookup k = some v
  | .error err => ∃ k s, configMap.lookup k = some s ∧ parseConfValue cpu parseVCore parseQuantity k s = .error err

/-- **`NewResourceFromConf` in every iteration order**: the resource of the
parsed values when every value parses, and otherwise the error of one that
does not. -/
theorem newResourceFromConf_spec (configMap : AList fun _ : String => String) :
    (∀ order : List (Σ _ : String, String), order.Perm configMap.entries →
      ConfResult cpu parseVCore parseQuantity configMap
        (order.foldlM (confStep cpu parseVCore parseQuantity) newResource)) ∧
    ConfResult cpu parseVCore parseQuantity configMap (newResourceFromConf cpu parseVCore parseQuantity configMap) := by
  suffices h : ∀ order : List (Σ _ : String, String), order.Perm configMap.entries →
      ConfResult cpu parseVCore parseQuantity configMap
        (order.foldlM (confStep cpu parseVCore parseQuantity) newResource) from ⟨h, h _ (List.Perm.refl _)⟩
  intro order horder
  have hmem : ∀ {e}, e ∈ order ↔ configMap.lookup e.1 = some e.2 :=
    fun {e} => horder.mem_iff.trans AList.mem_lookup_iff.symm
  match hrun : order.foldlM (confStep cpu parseVCore parseQuantity) newResource with
  | .error err =>
    obtain ⟨e, he, hp⟩ := foldlM_confStep_error cpu parseVCore parseQuantity order newResource err hrun
    exact ⟨e.1, e.2, hmem.mp he, hp⟩
  | .ok res =>
    have hall : ∀ e ∈ order, ∃ v, parseConfValue cpu parseVCore parseQuantity e.1 e.2 = .ok v := by
      intro e he
      match hp : parseConfValue cpu parseVCore parseQuantity e.1 e.2 with
      | .ok v => exact ⟨v, rfl⟩
      | .error err =>
        obtain ⟨err', h'⟩ := foldlM_confStep_isOk cpu parseVCore parseQuantity order newResource ⟨e, he, err, hp⟩
        rw [hrun] at h'; cases h'
    have hnd : order.NodupKeys := (List.perm_nodupKeys horder).mpr configMap.nodupKeys
    obtain ⟨res', hres', hlook⟩ := foldlM_confStep_ok cpu parseVCore parseQuantity order newResource hnd hall
    obtain rfl : res = res' := by rw [hrun] at hres'; cases hres'; rfl
    have hread : ∀ k, res.resources.lookup k =
        (configMap.lookup k).bind fun s => (parseConfValue cpu parseVCore parseQuantity k s).toOption := by
      intro k
      rw [hlook, List.perm_dlookup k hnd configMap.nodupKeys horder]
      exact Option.orElse_none _
    refine fun k => ⟨fun hk => by rw [hread, hk]; rfl, fun s hs => ?_⟩
    obtain ⟨v, hv⟩ := hall ⟨k, s⟩ (hmem.mpr hs)
    exact ⟨v, hv, by rw [hread, hs]; simp [hv, Except.toOption]⟩

end Conf

end Resources
