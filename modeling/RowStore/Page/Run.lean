import RowStore.Page.Codec

/-!
# Runs of a page

The operations on a page as data, and the answers and the page that a sequence of them gives. The
pages in use are those that operations reach from a new page or from a decoded one.
-/

namespace RowStore.Page

inductive Operation where
  | insert (key : Value)
  | get (key : Value)
  | remove (key : Value)
  | encode
  /-- Encoding, then decoding what that gave, with rows built in `source`. -/
  | reload (options : Options) (source : Nat)

inductive Answer where
  | inserted (outcome : Except Error Bool)
  | found (key? : Option Value)
  | encoded (outcome : Except Error Bytes)
  | reloaded (outcome : Except Error Unit)

/-- The answer to an operation and the page after it. A page that cannot be reloaded stays. -/
def step (page : Page) (checksum : Bytes → UInt32) : Operation → Answer × Page
  | .insert key => (.inserted (page.insert key).value.1, (page.insert key).value.2)
  | .get key => (.found (page.get? key).value, page)
  | .remove key => (.found (page.remove key).value.1, (page.remove key).value.2)
  | .encode => (.encoded (page.encode checksum), page)
  | .reload options source =>
    match page.reload options source checksum with
    | .ok reloaded => (.reloaded (.ok ()), reloaded)
    | .error e => (.reloaded (.error e), page)

/-- The answers to a sequence of operations and the page after them. -/
def run (page : Page) (checksum : Bytes → UInt32) : List Operation → List Answer × Page
  | [] => ([], page)
  | operation :: operations =>
    let (answer, next) := page.step checksum operation
    let (answers, last) := next.run checksum operations
    (answer :: answers, last)

inductive Reached (checksum : Bytes → UInt32) : Page → Prop where
  | new (schema : Schema) (options : Options) : Reached checksum (new schema options)
  | decoded {schema : Schema} {options : Options} {source : Nat} {data : Bytes} {page : Page} :
      decode schema options source data checksum = .ok page → Reached checksum page
  | step {page : Page} (operation : Operation) :
      Reached checksum page → Reached checksum (page.step checksum operation).2

end RowStore.Page
