import Mathlib.Logic.Basic

/-!
# Routes wrapped in middlewares

`WithMiddleware(middleware, rs...)` gives each route, in order, its method, its path and the
handler `middleware(route.Handler)`. `WithMiddlewares(ms, rs...)` applies `WithMiddleware` with
`ms[len(ms)-1]` first and `ms[0]` last. A handler is left abstract here: a middleware is any
function on handlers.

`withMiddlewares_eq` gives the routes `WithMiddlewares` returns for every list of middlewares:
the handler of each is `ms[0](ms[1](… ms[len(ms)-1](h)))`. So `ms[0]` is the outermost handler,
and a request passes through the middlewares in the order of the list before it reaches the
route's own handler.
-/

namespace ReadGoCode.Rest

/-- A `Route`: its method, its path and its handler. -/
structure Route (H : Type) where
  method : String
  path : String
  handler : H

variable {H : Type}

/-- `WithMiddleware(middleware, rs...)`. -/
def withMiddleware (middleware : H → H) (rs : List (Route H)) : List (Route H) :=
  rs.map fun route => ⟨route.method, route.path, middleware route.handler⟩

/-- `WithMiddlewares(ms, rs...)`: its loop `for i := len(ms) - 1; i >= 0; i--` visits `ms` from
the last to the first. -/
def withMiddlewares (ms : List (H → H)) (rs : List (Route H)) : List (Route H) :=
  ms.reverse.foldl (fun rs m => withMiddleware m rs) rs

/-- The handler `ms[0](ms[1](… ms[len(ms)-1](h)))`. -/
def chain (ms : List (H → H)) (h : H) : H := ms.foldr (fun m h => m h) h

/-- The first middleware of the list is applied last. -/
theorem withMiddlewares_cons (m : H → H) (ms : List (H → H)) (rs : List (Route H)) :
    withMiddlewares (m :: ms) rs = withMiddleware m (withMiddlewares ms rs) := by
  simp only [withMiddlewares, List.reverse_cons, List.foldl_append, List.foldl_cons,
    List.foldl_nil]

/-- Every `WithMiddlewares` call keeps the routes, in order, with their methods and paths, and
gives each the handler `ms[0](ms[1](… ms[len(ms)-1](h)))`. -/
theorem withMiddlewares_eq (ms : List (H → H)) (rs : List (Route H)) :
    withMiddlewares ms rs =
      rs.map fun route => ⟨route.method, route.path, chain ms route.handler⟩ := by
  induction ms with
  | nil => simp [withMiddlewares, chain]
  | cons m ms ih =>
      rw [withMiddlewares_cons, ih, withMiddleware, List.map_map]
      rfl

/-- A handler that answers with its trace, wrapped by two middlewares that each add their name:
the first of the list is the first to see the request. -/
example : (withMiddlewares [("a" :: ·), ("b" :: ·)] [⟨"GET", "/", ["h"]⟩]).map Route.handler =
    [["a", "b", "h"]] := rfl

end ReadGoCode.Rest
