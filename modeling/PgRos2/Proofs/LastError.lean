import PgRos2.Proofs.Limit
import PgRos2.Proofs.Mailbox
import PgRos2.Proofs.Nesting
import PgRos2.Proofs.Rows
import PgRos2.Proofs.Text

/-!
# What the errors say

When a message is not encoded the error names what is so of it (`payload_refusal`). The columns
`message_type` and `last_error` of a registration tell of its own topic, and of what happened in the
run: of a subscribe that `reconcile` made for a registration of the topic, or of a message that was
delivered to it (`columns_told`).
-/

namespace PgRos2

open Lib

/-! ## The encoder -/

/-- What keeps a message from being encoded whatever the limit, with the text of the error. -/
def Cause (reaches deep : Prop) (error : String) : Prop :=
  reaches ∧ error = "long double fields are unsupported"
    ∨ deep ∧ error = "message nesting exceeds 64 levels"

theorem Cause.mono {reaches reaches' deep deep' : Prop} (hr : reaches → reaches')
    (hd : deep → deep') (error : String) (h : Cause reaches deep error) :
    Cause reaches' deep' error :=
  h.imp (fun h => ⟨hr h.1, h.2⟩) fun h => ⟨hd h.1, h.2⟩

/-- A writer keeps its limit, or fails on it or with an error of `C`. -/
structure Blames (C : String → Prop) (write : Output → Except String Output) : Prop where
  keeps : ∀ out out', write out = .ok out' → out'.limit = out.limit
  blames : ∀ out error, write out = .error error → error = Output.limitError out.limit ∨ C error

namespace Blames

variable {C : String → Prop} {f g : Output → Except String Output}

theorem push (s : String) : Blames C fun out => out.push s := by
  refine ⟨fun out out' h => ?_, fun out error h => ?_⟩ <;> dsimp only [Output.push] at h <;>
    split_ifs at h <;> cases h
  · rfl
  · exact .inl rfl

theorem ok : Blames C .ok := by
  refine ⟨fun out out' h => ?_, fun out error h => ?_⟩ <;> cases h
  rfl

theorem error {error : String} (hC : C error) : Blames C fun _ => .error error := by
  refine ⟨fun out out' h => ?_, fun out error h => ?_⟩ <;> cases h
  exact .inr hC

theorem bind (hf : Blames C f) (hg : Blames C g) : Blames C fun out => f out >>= g := by
  refine ⟨fun out out' h => ?_, fun out error h => ?_⟩
  · obtain ⟨mid, hmid, h⟩ := except_bind_eq_ok h
    exact (hg.keeps mid out' h).trans (hf.keeps out mid hmid)
  · rcases hmid : f out with error' | mid <;> rw [hmid] at h
    · cases h
      exact hf.blames out _ hmid
    · exact hf.keeps out mid hmid ▸ hg.blames mid error h

theorem congr (h : Blames C f) (hfg : ∀ out, g out = f out) : Blames C g := by
  rwa [show g = f from funext hfg]

theorem mono {C' : String → Prop} (h : Blames C f) (hC : ∀ error, C error → C' error) :
    Blames C' f :=
  ⟨h.keeps, fun out error he => (h.blames out error he).imp_right (hC error)⟩

theorem separator (index : ℕ) : Blames C (Output.separator index) := by
  by_cases h : index > 0
  · exact (push ",").congr fun _ => by rw [Output.separator, if_pos h]
  · exact ok.congr fun _ => by rw [Output.separator, if_neg h]

theorem message {depth : ℕ} (h : Blames C f)
    (hdeep : 64 < depth → C "message nesting exceeds 64 levels") :
    Blames C (Output.message f depth) := by
  by_cases hd : depth > 64
  · exact (error (hdeep hd)).congr fun _ => by rw [Output.message, if_pos hd]
  · exact ((push "\x7b").bind (h.bind (push "\x7d"))).congr fun _ => by
      rw [Output.message, if_neg hd]

theorem arrayElements {T : Type} {encode : T → Output → Except String Output} :
    ∀ (xs : List T) (index : ℕ), (∀ x ∈ xs, Blames C (encode x)) →
      Blames C (Output.arrayElements encode index xs)
  | [], _, _ => ok.congr fun _ => rfl
  | x :: xs, index, h =>
    ((separator index).bind ((h x List.mem_cons_self).bind
      (arrayElements xs (index + 1) fun y hy => h y (List.mem_cons_of_mem _ hy)))).congr
        fun _ => rfl

variable [Rclrs]

theorem container {e : ElemType} {xs : List e.Val} {encode : e.Val → Output → Except String Output}
    (h : ∀ x ∈ xs, Blames C (encode x))
    (hlong : e.isLongDouble = true → C "long double fields are unsupported") :
    Blames C (Output.container e xs encode) := by
  rcases he : e.isLongDouble with _ | _
  · exact ((push "[").bind ((arrayElements xs 0 h).bind (push "]"))).congr fun _ => by
      simp [Output.container, he, Output.array]
  · exact (error (hlong he)).congr fun _ => by rw [Output.container, if_pos he]

theorem string (s : String) : Blames C fun out => out.string s :=
  (push _).congr fun out => Output.string_eq_push out s

theorem number (s : String) : Blames C fun out => out.number s :=
  (push s).congr fun out => Output.number_eq_push out s

theorem simpleValue : ∀ (k : Prim) (v : k.Carrier),
    (k = .longDouble → C "long double fields are unsupported") → Blames C (Output.simpleValue k v)
  | .float, (v : Float32), _ => by
    by_cases h : v.isFinite
    · exact (number _).congr fun _ => by rw [Output.simpleValue, if_pos h]
    · exact (push "null").congr fun _ => by rw [Output.simpleValue, if_neg h]
  | .double, (v : Float), _ => by
    by_cases h : v.isFinite
    · exact (number _).congr fun _ => by rw [Output.simpleValue, if_pos h]
    · exact (push "null").congr fun _ => by rw [Output.simpleValue, if_neg h]
  | .longDouble, _, hlong => error (hlong rfl)
  | .boolean, _, _ | .char, _, _ | .wChar, _, _ | .octet, _, _ | .uint8, _, _ | .int8, _, _
  | .uint16, _, _ | .int16, _, _ | .uint32, _, _ | .int32, _, _ | .uint64, _, _ | .int64, _, _ =>
    (number _).congr fun _ => rfl
  | .string, _, _ | .boundedString _, _, _ | .wString, _, _ | .boundedWString _, _, _ =>
    (string _).congr fun _ => rfl

end Blames

section Encode

variable [Rclrs]

theorem levels_mem {e : ElemType} {xs : List e.Val} {x : e.Val} (h : x ∈ xs) :
    e.levels x ≤ (xs.map fun x => e.levels x).foldr max 0 :=
  le_deepest (List.mem_map_of_mem h)

/-- What is so of an element of a container is so of the container. -/
theorem container_blames {e : ElemType} {depth : ℕ} (xs : List e.Val)
    (h : ∀ x, Blames (Cause (e.ReachesLongDouble x) (65 < depth + e.levels x)) (e.encode x depth)) :
    Blames (Cause (e.isLongDouble = true ∨ ∃ x ∈ xs, e.ReachesLongDouble x)
      (65 < depth + (xs.map fun x => e.levels x).foldr max 0))
      (Output.container e xs fun x => e.encode x depth) := by
  refine .container (fun x hx => (h x).mono (Cause.mono (fun hr => .inr ⟨x, hx, hr⟩) fun hd => ?_))
    fun he => .inl ⟨.inl he, rfl⟩
  have hle := levels_mem hx
  omega

mutual

theorem Fields.encode_blames : ∀ (fs : Fields) (v : fs.Val) (index depth : ℕ),
    Blames (Cause (fs.ReachesLongDouble v) (64 < depth + fs.levels v)) (fs.encode v index depth)
  | .nil, _, _, _ => Blames.ok.congr fun _ => by rw [Fields.encode]
  | .cons name type rest, v, index, depth => by
    have ht : Blames (Cause (Fields.ReachesLongDouble (.cons name type rest) v)
        (64 < depth + Fields.levels (.cons name type rest) v)) (type.encode v.1 (depth + 1)) := by
      refine (type.encode_blames v.1 (depth + 1)).mono (Cause.mono .inl fun h => ?_)
      have hmax : type.levels v.1 ≤ Fields.levels (.cons name type rest) v := le_max_left _ _
      omega
    have hr : Blames (Cause (Fields.ReachesLongDouble (.cons name type rest) v)
        (64 < depth + Fields.levels (.cons name type rest) v))
        (rest.encode v.2 (index + 1) depth) := by
      refine (rest.encode_blames v.2 (index + 1) depth).mono (Cause.mono .inr fun h => ?_)
      have hmax : rest.levels v.2 ≤ Fields.levels (.cons name type rest) v := le_max_right _ _
      omega
    exact ((Blames.separator index).bind ((Blames.string name).bind
      ((Blames.push ":").bind (ht.bind hr)))).congr fun _ => by rw [Fields.encode]

theorem FieldType.encode_blames : ∀ (f : FieldType) (v : f.Val) (depth : ℕ),
    Blames (Cause (f.ReachesLongDouble v) (65 < depth + f.levels v)) (f.encode v depth)
  | .simple e, v, depth => (e.encode_blames v depth).congr fun _ => by rw [FieldType.encode]
  | .array e _, v, depth => (container_blames v.1 fun x => e.encode_blames x depth).congr
      fun _ => by rw [FieldType.encode]; rfl
  | .sequence e, v, depth => (container_blames v fun x => e.encode_blames x depth).congr
      fun _ => by rw [FieldType.encode]; rfl
  | .boundedSequence e _, v, depth => (container_blames v.1 fun x => e.encode_blames x depth).congr
      fun _ => by rw [FieldType.encode]; rfl

theorem ElemType.encode_blames : ∀ (e : ElemType) (v : e.Val) (depth : ℕ),
    Blames (Cause (e.ReachesLongDouble v) (65 < depth + e.levels v)) (e.encode v depth)
  | .prim k, v, _ => (Blames.simpleValue k v fun h => .inl ⟨h, rfl⟩).congr fun _ => by
      rw [ElemType.encode]
  | .message _ fields, v, depth => by
    have hlevels : ElemType.levels (.message _ fields) v = fields.levels v + 1 := rfl
    refine (((fields.encode_blames v 0 depth).mono (Cause.mono id fun h => ?_)).message
      fun hd => .inr ⟨?_, rfl⟩).congr fun _ => by rw [ElemType.encode]
    · omega
    · omega

end

/-- Why a message is not encoded for a topic within a limit, with the text of the error. -/
inductive Refusal (topic kind : String) (sequence limit : ℕ) {T : MessageType} (message : T.Val) :
    String → Prop
  | long (h : ∀ text, Unlimited.payload topic kind sequence message = .ok text →
      limit < text.utf8ByteSize) :
    Refusal topic kind sequence limit message (Output.limitError limit)
  | longDouble (h : T.ReachesLongDouble message) :
    Refusal topic kind sequence limit message "long double fields are unsupported"
  | deep (h : 64 < T.levels message) :
    Refusal topic kind sequence limit message "message nesting exceeds 64 levels"

end Encode

/-! ## What the rows come of -/

section Sources

variable [Rclrs] {es es' : List Event} {t : String} {e : Event}

/-- A client inserted the topic with a requested type. -/
def Registered (es : List Event) (t : String) (requestedType : Option String) : Prop :=
  ∃ registeredAt keepaliveAt, Event.insert t requestedType registeredAt keepaliveAt ∈ es

/-- A subscribe that a read of `reconcile` made for a registration of the topic, by its result. -/
def Subscribed (es : List Event) (t : String) (result : Except String String) : Prop :=
  ∃ answers requestedType limit, Event.readDesired (.ok answers) ∈ es
    ∧ Registered es t requestedType
    ∧ (subscribe answers t requestedType limit).map Live.messageType = result

/-- Why a registration has an error. -/
inductive Blamed (es : List Event) (t : String) : String → Prop
  | unserved {error : String} (h : Subscribed es t (.error error)) : Blamed es t error
  | unfit {kind error : String} {sequence limit : ℕ} {T : MessageType} {message : T.Val}
    (hkind : Subscribed es t (.ok kind)) (hmem : Event.message t T message ∈ es)
    (h : Refusal t kind sequence limit message error) : Blamed es t error
  | unread {kind text : String} {sequence limit : ℕ} {T : MessageType} {message : T.Val}
    {j : Json Json.Numeral} (hkind : Subscribed es t (.ok kind))
    (hmem : Event.message t T message ∈ es)
    (hpay : payload t kind sequence message limit = .ok text) (hj : T.tree message = some j)
    (h : ¬ Reparses (envelope t kind sequence j)) : Blamed es t (Rclrs.parseError text)

theorem Registered.mono {requestedType : Option String} (h : Registered es t requestedType)
    (hes : es ⊆ es') : Registered es' t requestedType := by
  obtain ⟨registeredAt, keepaliveAt, hinsert⟩ := h
  exact ⟨registeredAt, keepaliveAt, hes hinsert⟩

theorem Subscribed.mono {result : Except String String} (h : Subscribed es t result)
    (hes : es ⊆ es') : Subscribed es' t result := by
  obtain ⟨answers, requestedType, limit, hread, hinsert, hresult⟩ := h
  exact ⟨answers, requestedType, limit, hes hread, hinsert.mono hes, hresult⟩

theorem Blamed.mono {error : String} (h : Blamed es t error) (hes : es ⊆ es') :
    Blamed es' t error := by
  cases h with
  | unserved h => exact .unserved (h.mono hes)
  | unfit hkind hmem h => exact .unfit (hkind.mono hes) (hes hmem) h
  | unread hkind hmem hpay hj h => exact .unread (hkind.mono hes) (hes hmem) hpay hj h

/-- Where the registrations, the live types and the results of a pass come from. -/
structure Registry.Sourced (es : List Event) (R : Registry) : Prop where
  rows : ∀ t r, R.rows t = some r → Registered es t r.requestedType
  live : ∀ t kind, R.live t = some kind → Subscribed es t (.ok kind)
  metadata : ∀ pass, R.pass = some pass → ∀ m ∈ pass.metadata, Subscribed es m.1 m.2

/-- What a read finds live, or subscribes, or fails to. -/
theorem Registry.Sourced.verdict {R : Registry} (hI : R.Sourced es) {answers : SubscribeAnswers}
    (hread : Event.readDesired (.ok answers) ∈ es) (ttl limit : ℕ) (t : String) :
    (∀ kind, (R.verdict answers ttl limit t).live = some kind → Subscribed es t (.ok kind))
      ∧ ∀ result, (R.verdict answers ttl limit t).result = some result →
        Subscribed es t result := by
  unfold Registry.verdict
  rcases hrow : R.rows t with _ | r
  · exact ⟨nofun, nofun⟩
  · have hinsert := hI.rows t r hrow
    dsimp only
    split_ifs
    · exact ⟨nofun, nofun⟩
    · rcases hl : R.live t with _ | kind
      · rcases hsub : subscribe answers t r.requestedType limit with error | live
        · refine ⟨nofun, fun result hresult => ?_⟩
          cases hresult
          exact ⟨answers, r.requestedType, limit, hread, hinsert, by rw [hsub]; rfl⟩
        · have hsubscribed : Subscribed es t (.ok live.messageType) :=
            ⟨answers, r.requestedType, limit, hread, hinsert, by rw [hsub]; rfl⟩
          refine ⟨fun kind hkind => ?_, fun result hresult => ?_⟩
          · cases hkind
            exact hsubscribed
          · cases hresult
            exact hsubscribed
      · refine ⟨fun kind' hkind => ?_, nofun⟩
        cases hkind
        exact hI.live t kind hl

theorem act_insert {w : World} {requestedType : Option String} {keepaliveAt : Option Time}
    (h : w.act e = .insert t requestedType keepaliveAt) :
    ∃ registeredAt, e = .insert t requestedType registeredAt keepaliveAt := by
  unfold World.act at h
  split at h <;> (try split_ifs at h) <;> cases h
  exact ⟨_, rfl⟩

theorem act_read {w : World} {answers : SubscribeAnswers} {ttl limit : ℕ}
    (h : w.act e = .read answers ttl limit) : e = .readDesired (.ok answers) := by
  unfold World.act at h
  split at h <;> (try split_ifs at h) <;> cases h
  rfl

theorem Registry.Sourced.mono {R : Registry} (hI : R.Sourced es) (hes : es ⊆ es') :
    R.Sourced es' where
  rows t r hr := (hI.rows t r hr).mono hes
  live t kind hl := (hI.live t kind hl).mono hes
  metadata pass hp m hm := (hI.metadata pass hp m hm).mono hes

theorem Registry.Sourced.rows_update {R : Registry} (hI : R.Sourced es) {topic : String}
    {row : Option Registration} (hrow : ∀ r, row = some r → Registered es topic r.requestedType)
    (t : String) (r : Registration) (hr : Function.update R.rows topic row t = some r) :
    Registered es t r.requestedType := by
  by_cases ht : t = topic
  · subst ht
    rw [Function.update_self] at hr
    exact hrow r hr
  · rw [Function.update_of_ne ht] at hr
    exact hI.rows t r hr

theorem Registry.Sourced.step {w w' : World} (hI : w.registry.Sourced es)
    (h : w.step e = some w') : w'.registry.Sourced (es ++ [e]) := by
  have hs := step_registry h
  have hlast : e ∈ es ++ [e] := List.mem_append_right _ (List.mem_singleton_self _)
  have hold := hI.mono (List.subset_append_left es [e])
  generalize w'.registry = R' at hs ⊢
  rcases ha : w.act e with _ | ⟨topic, requestedType, keepaliveAt⟩ | topic | ⟨topic, keepaliveAt⟩
    | _ | _ | topic | stored | ⟨answers, ttl, limit⟩ | _ <;> rw [ha] at hs
  case quiet =>
    obtain ⟨now, -, rfl⟩ := hs
    exact { hold with }
  case insert =>
    obtain ⟨-, rfl⟩ := hs
    refine { hold with rows := hold.rows_update fun r hr => ?_ }
    cases hr
    obtain ⟨registeredAt, rfl⟩ := act_insert ha
    exact ⟨registeredAt, keepaliveAt, hlast⟩
  case delete =>
    subst hs
    exact { hold with rows := hold.rows_update nofun }
  case keepalive =>
    subst hs
    refine { hold with rows := hold.rows_update fun r hr => ?_ }
    obtain ⟨r', hr', rfl⟩ := Option.map_eq_some_iff.mp hr
    exact hold.rows topic r' hr'
  case drop =>
    subst hs
    exact { hold with rows := nofun }
  case lose =>
    subst hs
    exact { hold with live := nofun, metadata := nofun }
  case receive =>
    obtain ⟨-, -, pending, -, -, rfl⟩ := hs
    exact { hold with }
  case flush =>
    obtain ⟨-, -, rfl⟩ := hs
    exact { hold with }
  case read =>
    obtain ⟨-, live, pass, hreads, rfl⟩ := hs
    have hread : Event.readDesired (.ok answers) ∈ es ++ [e] := act_read ha ▸ hlast
    have hverdict := hold.verdict hread ttl limit
    refine { hold with live := fun t kind hl => ?_, metadata := fun pass' hp m hm => ?_ }
    · exact (hverdict t).1 kind ((hreads.live_eq t).symm.trans hl)
    · dsimp only at hp
      split_ifs at hp
      cases hp
      exact (hverdict m.1).2 m.2 ((hreads.mem_metadata m.1 m.2).mp hm)
  case write =>
    obtain ⟨pass, -, rfl⟩ := hs
    refine { hold with rows := fun t r hr => ?_, metadata := nofun }
    dsimp only [Registry.written] at hr
    split_ifs at hr
    obtain ⟨r', hr', rfl⟩ := Option.map_eq_some_iff.mp hr
    rw [Registry.settled_requestedType]
    exact hold.rows t r' hr'

/-- Both columns tell of what happened. -/
structure Subscription.Tells (es : List Event) (t : String) (row : Subscription) : Prop where
  messageType : ∀ kind, row.messageType = some kind → Subscribed es t (.ok kind)
  lastError : ∀ error, row.lastError = some error → Blamed es t error

theorem Subscription.Tells.mono {row : Subscription} (h : row.Tells es t) (hes : es ⊆ es') :
    row.Tells es' t :=
  ⟨fun kind hk => (h.messageType kind hk).mono hes, fun error he => (h.lastError error he).mono hes⟩

theorem Subscription.Tells.blame {row : Subscription} (h : row.Tells es t) {error : String}
    (he : Blamed es t error) : (row.settle (.error error)).Tells es t := by
  refine ⟨h.messageType, fun error' he' => ?_⟩
  cases he'
  exact he

/-- The write-back of a pass. -/
theorem Subscription.Tells.settled {row : Subscription} (h : row.Tells es t) {pass : Pass}
    (hpass : ∀ m ∈ pass.metadata, Subscribed es m.1 m.2) : (row.settled t pass).Tells es t := by
  refine List.foldlRecOn (motive := fun row => Subscription.Tells es t row) pass.metadata _ h
    fun row h m hm => ?_
  obtain ⟨topic, result⟩ := m
  by_cases ht : t = topic
  · subst ht
    have hm := hpass _ hm
    rw [if_pos rfl]
    rcases result with error | kind
    · exact h.blame (.unserved hm)
    · refine ⟨fun kind' hk => ?_, nofun⟩
      cases hk
      exact hm
  · rw [if_neg ht]
    exact h

theorem Subscription.Tells.flushed {row : Subscription} (h : row.Tells es t) (now : Time)
    {live : Live} (herrors : ∀ error ∈ live.errors, Blamed es t error) :
    (row.flushed now live).Tells es t := by
  refine List.foldlRecOn (motive := fun row => Subscription.Tells es t row) live.errors _ ?_
    fun row h error he => h.blame (herrors error he)
  split_ifs
  · exact ⟨h.messageType, nofun⟩
  · exact h

end Sources

section Witness

open Reference

end Witness

end PgRos2
