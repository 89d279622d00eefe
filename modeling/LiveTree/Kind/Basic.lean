import LiveTree.Json.Decoder

namespace LiveTree

inductive Kind where
  | app | navbar | navLink | container | row | column | card
  | button | text | chip | divider | breadcrumbs | inputbox
deriving DecidableEq

namespace Kind

def all : List Kind :=
  [.app, .navbar, .navLink, .container, .row, .column, .card,
    .button, .text, .chip, .divider, .breadcrumbs, .inputbox]

def name : Kind → String
  | .app => "App"
  | .navbar => "Navbar"
  | .navLink => "NavLink"
  | .container => "Container"
  | .row => "Row"
  | .column => "Column"
  | .card => "Card"
  | .button => "Button"
  | .text => "Text"
  | .chip => "Chip"
  | .divider => "Divider"
  | .breadcrumbs => "Breadcrumbs"
  | .inputbox => "Inputbox"

/-- The tag a host creates for an element of this kind. -/
def tag : Kind → String
  | .app => "jsc-app"
  | .navbar => "jsc-nav-bar"
  | .navLink => "jsc-nav-link"
  | .container => "jsc-container"
  | .row => "jsc-row"
  | .column => "jsc-column"
  | .card => "jsc-card"
  | .button => "jsc-button"
  | .text => "jsc-text"
  | .chip => "jsc-chip"
  | .divider => "jsc-divider"
  | .breadcrumbs => "jsc-breadcrumbs"
  | .inputbox => "jsc-inputbox"

def ofName? (name : String) : Option Kind :=
  all.find? (·.name = name)

def index (kind : Kind) : Nat :=
  all.idxOf kind

def decoder : Decoder Kind :=
  .choice ofName?

end Kind

end LiveTree
