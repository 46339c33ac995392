import Sluice.Command.Invoke
import Sluice.Proofs.Json.Limits
import Sluice.Proofs.Stream.Laws
import Sluice.Proofs.Url.Library

/-!
Where `invoke` sends its request. Its source is pulled to the end, then one request is sent, to what
the path of the endpoint comes to as a reference from the address. A library of addresses that keeps
the laws has nothing of the path of the address left there, so the endpoint is below the address exactly
when there is nothing to keep.
-/

namespace Sluice

namespace Invoke

def bodyOf (tool action : String) (arguments : Json) : Json :=
  .obj [("tool", .str tool), ("action", .str action), ("args", arguments)]

/-- An `invoke` that has all it needs for a call: an address from its flag or else from the
environment, a tool, an action, arguments that JSON text can hold, no half of a character in any of
them, and no token or one that fits into a header. -/
structure Ready (ctx : Context) (args : Args) (url tool action : String) (arguments : Json) :
    Prop where
  encodable : (bodyOf tool action arguments).half? = none
  url : ∃ raw, trimmed raw = url ∧ (args.filled? "url" = some raw ∨
    args.filled? "url" = none ∧ ctx.filled? urlVariable = some raw)
  tool : args.filled? "tool" = some tool
  action : args.filled? "action" = some action
  reads : toolArguments args = .ok arguments
  finite : arguments.allFinite = true
  token : ∀ c ∈ (setting ctx args "token" tokenVariable).toList, c.toNat ≤ 0x7f

variable {ctx : Context} {args : Args} {url tool action : String} {arguments : Json}

theorem Ready.setting_url (h : Ready ctx args url tool action arguments) :
    setting ctx args "url" urlVariable = url := by
  obtain ⟨raw, rfl, hflag | ⟨hflag, hvariable⟩⟩ := h.url
  · rw [setting, hflag]
    rfl
  · rw [setting, hflag, hvariable]
    rfl

theorem Ready.call_eq (h : Ready ctx args url tool action arguments) (hne : url ≠ "") :
    call ctx args = .ok ⟨url, tool, action, arguments, setting ctx args "token" tokenVariable⟩ := by
  have hfilled : url.isEmpty = false := by simpa using hne
  simp only [call, h.setting_url, hfilled, h.tool, h.action, h.reads]
  rfl

theorem headerText_of_ascii {s : String} (h : ∀ c ∈ s.toList, c.toNat ≤ 0x7f) :
    headerText s = .ok s := by
  have hnone : s.toList.findIdx? (fun c => 0x7f < c.toNat) = none := by
    rw [List.findIdx?_eq_none_iff]
    intro c hc
    simpa using h c hc
  simp only [headerText, hnone]

variable {lib : Url.Library} {refers : String → Bool}

/-- A call whose token is in ASCII and whose body can be written fits into a request to the address that
comes of its own. -/
theorem post_eq {c : Call} {b endpoint : lib.Address} (hread : lib.read c.url = .ok b)
    (hjoin : lib.join b Url.endpointPath = .ok endpoint)
    (htoken : ∀ d ∈ c.token.toList, d.toNat ≤ 0x7f) (hfinite : c.arguments.allFinite = true)
    (hencodable : (bodyOf c.tool c.action c.arguments).half? = none) :
    ∃ authorization, post lib c = .ok ⟨lib.text endpoint, authorization,
      Json.text Json.compact (bodyOf c.tool c.action c.arguments)⟩ := by
  have hbody : (bodyOf c.tool c.action c.arguments).allFinite = true := by
    simp [bodyOf, Json.allFinite, Json.allFiniteMembers, hfinite]
  have htext := Json.encodable_eq_ok hencodable
  have hword : ∀ d ∈ "Bearer ".toList, d.toNat ≤ 0x7f := by simp
  have hheader : headerText s!"Bearer {c.token}" = .ok s!"Bearer {c.token}" := by
    apply headerText_of_ascii
    intro d hd
    rcases List.mem_append.mp (String.toList_append ▸ hd) with hd | hd
    · exact hword d hd
    · exact htoken d hd
  unfold bodyOf at hbody htext
  simp only [post, hread, Except.mapError, bind, Except.bind, hjoin]
  cases hempty : c.token.isEmpty with
  | true =>
    refine ⟨(lib.authorization? endpoint).orElse fun _ => none, ?_⟩
    simp only [↓reduceIte, hbody, htext]
    rfl
  | false =>
    refine ⟨(lib.authorization? endpoint).orElse fun _ => some s!"Bearer {c.token}", ?_⟩
    simp only [Bool.false_eq_true, ↓reduceIte, hheader, hbody, htext]
    rfl

/-- The source is pulled to its end, and then one request is sent. -/
theorem log_stream {c : Call} {request : Post} (hpost : post lib c = .ok request) (stage : Nat)
    {source : Stream} {script : Script} {xs : List Item}
    (hsource : (source.collect.run script).result = .ok xs) :
    ((stream lib stage c source).collect.run script).log =
      (source.collect.run script).log ++ [⟨stage, .post request⟩] := by
  have hitems (reply : Reply) (script : Script) :
      ((Program.ofExcept (items reply)).run script).log = [] := by
    cases items reply <;> rfl
  have hafter (script : Script) : (((Program.effect stage (.post request)).bind fun reply =>
      Program.ofExcept (items reply)).run script).log = [⟨stage, .post request⟩] :=
    congrArg (Logged.mk stage (.post request) :: ·) (hitems _ _)
  rw [stream, Stream.collect_ofProgram, Program.monad_bind, Program.run_bind, hsource, hpost]
  exact congrArg ((source.collect.run script).log ++ ·) (hafter _)

/-- Where no address comes of the reference nothing is sent, once the source has come to its end. -/
theorem stream_of_join_error {c : Call} {b : lib.Address} {e : UrlError}
    (hread : lib.read c.url = .ok b) (hjoin : lib.join b Url.endpointPath = .error e) (stage : Nat)
    {source : Stream} {script : Script} {xs : List Item}
    (hsource : (source.collect.run script).result = .ok xs) :
    ((stream lib stage c source).collect.run script).result = .error (.url e) ∧
      ((stream lib stage c source).collect.run script).log = (source.collect.run script).log := by
  have hpost : post lib c = .error (.url e) := by
    simp only [post, hread, Except.mapError, bind, Except.bind, hjoin]
  rw [stream, Stream.collect_ofProgram, Program.monad_bind, Program.run_bind, hsource, hpost]
  exact ⟨rfl, List.append_nil _⟩

/-- An `invoke` that is ready runs the stream of its call. -/
theorem Ready.run_eq (h : Ready ctx args url tool action arguments) (hne : url ≠ "")
    (lib : Url.Library) (index : Nat) (source : Stream) :
    (Command.invoke lib).run index ctx args source = .ok (.plain (stream lib index
      ⟨url, tool, action, arguments, setting ctx args "token" tokenVariable⟩ source)) := by
  simp only [Command.invoke, h.call_eq hne]
  rfl

/-- An `invoke` that is ready, over an address that names a host, sends one request once its source has
come to its end, or none where the library refuses the reference. The request goes behind the front of
the address, which is read as if the address had no path. This is the address without the slashes at
its end, with the path of the endpoint behind it, if and only if its scheme can be referred from, as
those of the web can, and it has nothing but slashes for its path. The front is taken in the form in
which it is asked for, which for a plain address is the form in which it is given. -/
theorem posts_below_address_iff (hlib : lib.Lawful refers) {a : Url.Address} {b : lib.Address}
    (hread : lib.read a.text = .ok b) (hready : Ready ctx args a.text tool action arguments)
    (index : Nat) {source : Stream} {script : Script} {xs : List Item}
    (hsource : (source.collect.run script).result = .ok xs) :
    ∃ output, (Command.invoke lib).run index ctx args source = .ok (.plain output) ∧
      (∃ b', lib.read a.bare.text = .ok b' ∧ lib.root b' = lib.root b) ∧
      (∀ host port, a.Plain host port → lib.root b = a.bare.text) ∧
      (∀ e, lib.join b Url.endpointPath = .error e →
        (output.collect.run script).result = .error (.url e) ∧
          (output.collect.run script).log = (source.collect.run script).log) ∧
      ∀ endpoint, lib.join b Url.endpointPath = .ok endpoint →
        ∃ request, (output.collect.run script).log =
            (source.collect.run script).log ++ [⟨index, .post request⟩] ∧
          request.body = Json.text Json.compact (bodyOf tool action arguments) ∧
          (lib.scheme b ∈ ["http", "https"] → request.url = lib.root b ++ Url.endpointPath) ∧
          (request.url = lib.root b ++ String.ofList a.trimmedPath ++ Url.endpointPath ↔
            refers (lib.scheme b) = true ∧ ∀ c ∈ a.path, c = '/') := by
  refine ⟨_, hready.run_eq a.text_ne_empty lib index source, hlib.exists_bare hread,
    fun host port hplain => hlib.root_plain hplain hread,
    fun e hjoin => stream_of_join_error hread hjoin index hsource, fun endpoint hjoin => ?_⟩
  obtain ⟨authorization, hpost⟩ :=
    post_eq (c := ⟨a.text, tool, action, arguments, _⟩) hread hjoin hready.token hready.finite
      hready.encodable
  refine ⟨_, log_stream hpost index hsource, rfl, ?_, ?_⟩
  · intro hweb
    exact hlib.text_join hread (hlib.refers_web _ hweb) Url.endpointPath_isPlainPath hjoin
  · rw [← Url.Address.trimmedPath_eq_nil]
    exact hlib.text_join_eq_iff hread Url.endpointPath_isPlainPath hjoin a.trimmedPath

/-- The address of a host with slashes behind it, with blanks around it in the environment. -/
theorem posts_below_host_with_slashes :
    let ctx : Context := ⟨.tool, [(urlVariable, " http://tools.test/// ")], false⟩
    let args : Args := [("tool", .single "message"), ("action", .single "send")]
    Ready ctx args "http://tools.test///" "message" "send" (.obj []) ∧
      ∃ output request,
        (Command.invoke .standard).run 0 ctx args (.ofList []) = .ok (.plain output) ∧
        (output.collect.run .empty).log = [⟨0, .post request⟩] ∧
        request.url = "http://tools.test/tools/invoke" := by
  intro ctx args
  let a : Url.Address :=
    { scheme := ['h', 't', 't', 'p']
      authority := ['t', 'o', 'o', 'l', 's', '.', 't', 'e', 's', 't']
      path := ['/', '/', '/']
      scheme_begins := ⟨'h', ['t', 't', 'p'], rfl, rfl⟩
      scheme_chars := List.all_eq_true.mp rfl
      authority_chars := by simp [Url.endsAuthority]
      names_host := by decide +kernel
      path_begins := .inr ⟨['/', '/'], rfl⟩
      path_chars := by simp }
  have htext : a.text = "http://tools.test///" := by decide +kernel
  have htoken : setting ctx args "token" tokenVariable = "" := by decide +kernel
  have hready : Ready ctx args "http://tools.test///" "message" "send" (.obj []) :=
    { encodable := by decide +kernel
      url := ⟨" http://tools.test/// ", by decide +kernel, .inr (by decide +kernel)⟩
      tool := by decide +kernel
      action := by decide +kernel
      reads := rfl
      finite := rfl
      token := by simp [htoken] }
  let b : Url.Parts := ⟨"http", "", "tools.test", none, "///"⟩
  let endpoint : Url.Parts := ⟨"http", "", "tools.test", none, Url.endpointPath⟩
  have hparts : Url.read a.text = .ok b := by decide +kernel
  have hread := (Url.Library.standard_read a.text).trans hparts
  have hpath : b.join Url.endpointPath = .ok endpoint := by decide +kernel
  have hjoin := (Url.Library.standard_join b Url.endpointPath).trans hpath
  have hsource : ((Stream.ofList []).collect.run .empty).result = .ok [] := rfl
  obtain ⟨output, hrun, -, -, -, hsent⟩ := posts_below_address_iff Url.Library.standard_lawful hread
    (htext ▸ hready) 0 hsource
  obtain ⟨request, hlog, -, hurl, -⟩ := hsent _ hjoin
  have hroot : Url.Library.standard.root b ++ Url.endpointPath =
      "http://tools.test/tools/invoke" := by decide +kernel
  exact ⟨hready, output, request, hrun, hlog, (hurl List.mem_cons_self).trans hroot⟩

/-- The request of an address with a path goes past this path. -/
theorem path_of_address_lost :
    let args : Args :=
      [("url", .single "http://tools.test/api"), ("tool", .single "t"), ("action", .single "a")]
    ∃ output request,
      (Command.invoke .standard).run 0 ⟨.tool, [], false⟩ args (.ofList []) = .ok (.plain output) ∧
        (output.collect.run .empty).log = [⟨0, .post request⟩] ∧
        request.url = "http://tools.test/tools/invoke" ∧
        request.url ≠ "http://tools.test/api/tools/invoke" := by
  intro args
  have htoken : setting ⟨.tool, [], false⟩ args "token" tokenVariable = "" := by decide +kernel
  have hready : Ready ⟨.tool, [], false⟩ args "http://tools.test/api" "t" "a" (.obj []) :=
    { encodable := by decide +kernel
      url := ⟨"http://tools.test/api", by decide +kernel, .inl (by decide +kernel)⟩
      tool := by decide +kernel
      action := by decide +kernel
      reads := rfl
      finite := rfl
      token := by simp [htoken] }
  let b : Url.Parts := ⟨"http", "", "tools.test", none, "/api"⟩
  let endpoint : Url.Parts := ⟨"http", "", "tools.test", none, Url.endpointPath⟩
  let call : Call :=
    ⟨"http://tools.test/api", "t", "a", .obj [], setting ⟨.tool, [], false⟩ args "token" tokenVariable⟩
  have hparts : Url.read call.url = .ok b := by decide +kernel
  have hread := (Url.Library.standard_read call.url).trans hparts
  have hpath : b.join Url.endpointPath = .ok endpoint := by decide +kernel
  have hjoin := (Url.Library.standard_join b Url.endpointPath).trans hpath
  obtain ⟨authorization, hpost⟩ := post_eq hread hjoin hready.token hready.finite hready.encodable
  have htext : endpoint.text = "http://tools.test/tools/invoke" := by decide +kernel
  refine ⟨_, _, hready.run_eq (by decide) .standard 0 (.ofList []), log_stream hpost 0 rfl, htext, ?_⟩
  exact htext.trans_ne (by decide)

end Invoke

end Sluice
