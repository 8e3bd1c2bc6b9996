/-!
# CodeMend — kinds of nodes

The forms of a C# source that have a node of their own.  Tokens are not nodes; they hang under them.
-/

namespace CodeMend

/-- The form that a node stands for. -/
inductive NodeKind where
  -- Top level.
  | compilationUnit
  | usingDirective
  | namespaceDeclaration
  | fileScopedNamespaceDeclaration
  -- Types and members.
  | classDeclaration
  | structDeclaration
  | interfaceDeclaration
  | recordDeclaration
  | baseList
  | attributeList
  | typeParameterList
  | typeParameterConstraintClause
  | methodDeclaration
  | constructorDeclaration
  | constructorInitializer
  | fieldDeclaration
  | propertyDeclaration
  | accessorList
  | accessorDeclaration
  | arrowExpressionClause
  | explicitInterfaceSpecifier
  | parameterList
  | parameter
  | equalsValueClause
  /-- A member that is kept as plain tokens: enumerations, delegates, events, operators and such. -/
  | unknownMember
  -- Types.
  | predefinedType
  | identifierName
  | genericName
  | typeArgumentList
  | qualifiedName
  | arrayType
  | arrayRankSpecifier
  | nullableType
  | tupleType
  | tupleElement
  -- Statements.
  | block
  | localDeclarationStatement
  | localFunctionStatement
  | variableDeclaration
  | variableDeclarator
  | expressionStatement
  | ifStatement
  | elseClause
  | returnStatement
  | whileStatement
  | doStatement
  | forStatement
  | forEachStatement
  | throwStatement
  | breakStatement
  | continueStatement
  | yieldReturnStatement
  | yieldBreakStatement
  | emptyStatement
  | tryStatement
  | catchClause
  | catchDeclaration
  | finallyClause
  | switchStatement
  | switchSection
  | caseSwitchLabel
  | defaultSwitchLabel
  | usingStatement
  | lockStatement
  -- Expressions, patterns and arguments.
  | literalExpression
  | thisExpression
  | baseExpression
  | memberAccessExpression
  | invocationExpression
  | argumentList
  | bracketedArgumentList
  | argument
  | nameColon
  | parenthesizedExpression
  | tupleExpression
  | declarationExpression
  | singleVariableDesignation
  | parenthesizedVariableDesignation
  | prefixUnaryExpression
  | postfixUnaryExpression
  | awaitExpression
  | binaryExpression
  | asExpression
  | isPatternExpression
  | constantPattern
  | declarationPattern
  | typePattern
  | notPattern
  | castExpression
  | assignmentExpression
  | conditionalExpression
  | conditionalAccessExpression
  | memberBindingExpression
  | elementBindingExpression
  | elementAccessExpression
  | objectCreationExpression
  | implicitObjectCreationExpression
  | initializerExpression
  | arrayCreationExpression
  | implicitArrayCreationExpression
  | typeOfExpression
  | defaultExpression
  | simpleLambdaExpression
  | parenthesizedLambdaExpression
  | throwExpression
deriving DecidableEq, Repr, Inhabited

namespace NodeKind

/-- The kinds and their names. -/
def names : List (NodeKind × String) := [
    (.compilationUnit, "CompilationUnit"), (.usingDirective, "UsingDirective"),
    (.namespaceDeclaration, "NamespaceDeclaration"),
    (.fileScopedNamespaceDeclaration, "FileScopedNamespaceDeclaration"),
    (.classDeclaration, "ClassDeclaration"), (.structDeclaration, "StructDeclaration"),
    (.interfaceDeclaration, "InterfaceDeclaration"), (.recordDeclaration, "RecordDeclaration"),
    (.baseList, "BaseList"), (.attributeList, "AttributeList"),
    (.typeParameterList, "TypeParameterList"),
    (.typeParameterConstraintClause, "TypeParameterConstraintClause"),
    (.methodDeclaration, "MethodDeclaration"), (.constructorDeclaration, "ConstructorDeclaration"),
    (.constructorInitializer, "ConstructorInitializer"), (.fieldDeclaration, "FieldDeclaration"),
    (.propertyDeclaration, "PropertyDeclaration"), (.accessorList, "AccessorList"),
    (.accessorDeclaration, "AccessorDeclaration"),
    (.arrowExpressionClause, "ArrowExpressionClause"),
    (.explicitInterfaceSpecifier, "ExplicitInterfaceSpecifier"), (.parameterList, "ParameterList"),
    (.parameter, "Parameter"), (.equalsValueClause, "EqualsValueClause"),
    (.unknownMember, "UnknownMember"), (.predefinedType, "PredefinedType"),
    (.identifierName, "IdentifierName"), (.genericName, "GenericName"),
    (.typeArgumentList, "TypeArgumentList"), (.qualifiedName, "QualifiedName"),
    (.arrayType, "ArrayType"), (.arrayRankSpecifier, "ArrayRankSpecifier"),
    (.nullableType, "NullableType"), (.tupleType, "TupleType"), (.tupleElement, "TupleElement"),
    (.block, "Block"), (.localDeclarationStatement, "LocalDeclarationStatement"),
    (.localFunctionStatement, "LocalFunctionStatement"),
    (.variableDeclaration, "VariableDeclaration"), (.variableDeclarator, "VariableDeclarator"),
    (.expressionStatement, "ExpressionStatement"), (.ifStatement, "IfStatement"),
    (.elseClause, "ElseClause"), (.returnStatement, "ReturnStatement"),
    (.whileStatement, "WhileStatement"), (.doStatement, "DoStatement"),
    (.forStatement, "ForStatement"), (.forEachStatement, "ForEachStatement"),
    (.throwStatement, "ThrowStatement"), (.breakStatement, "BreakStatement"),
    (.continueStatement, "ContinueStatement"), (.yieldReturnStatement, "YieldReturnStatement"),
    (.yieldBreakStatement, "YieldBreakStatement"), (.emptyStatement, "EmptyStatement"),
    (.tryStatement, "TryStatement"), (.catchClause, "CatchClause"),
    (.catchDeclaration, "CatchDeclaration"), (.finallyClause, "FinallyClause"),
    (.switchStatement, "SwitchStatement"), (.switchSection, "SwitchSection"),
    (.caseSwitchLabel, "CaseSwitchLabel"), (.defaultSwitchLabel, "DefaultSwitchLabel"),
    (.usingStatement, "UsingStatement"), (.lockStatement, "LockStatement"),
    (.literalExpression, "LiteralExpression"), (.thisExpression, "ThisExpression"),
    (.baseExpression, "BaseExpression"), (.memberAccessExpression, "MemberAccessExpression"),
    (.invocationExpression, "InvocationExpression"), (.argumentList, "ArgumentList"),
    (.bracketedArgumentList, "BracketedArgumentList"), (.argument, "Argument"),
    (.nameColon, "NameColon"), (.parenthesizedExpression, "ParenthesizedExpression"),
    (.tupleExpression, "TupleExpression"), (.declarationExpression, "DeclarationExpression"),
    (.singleVariableDesignation, "SingleVariableDesignation"),
    (.parenthesizedVariableDesignation, "ParenthesizedVariableDesignation"),
    (.prefixUnaryExpression, "PrefixUnaryExpression"),
    (.postfixUnaryExpression, "PostfixUnaryExpression"), (.awaitExpression, "AwaitExpression"),
    (.binaryExpression, "BinaryExpression"), (.asExpression, "AsExpression"),
    (.isPatternExpression, "IsPatternExpression"), (.constantPattern, "ConstantPattern"),
    (.declarationPattern, "DeclarationPattern"), (.typePattern, "TypePattern"),
    (.notPattern, "NotPattern"), (.castExpression, "CastExpression"),
    (.assignmentExpression, "AssignmentExpression"),
    (.conditionalExpression, "ConditionalExpression"),
    (.conditionalAccessExpression, "ConditionalAccessExpression"),
    (.memberBindingExpression, "MemberBindingExpression"),
    (.elementBindingExpression, "ElementBindingExpression"),
    (.elementAccessExpression, "ElementAccessExpression"),
    (.objectCreationExpression, "ObjectCreationExpression"),
    (.implicitObjectCreationExpression, "ImplicitObjectCreationExpression"),
    (.initializerExpression, "InitializerExpression"),
    (.arrayCreationExpression, "ArrayCreationExpression"),
    (.implicitArrayCreationExpression, "ImplicitArrayCreationExpression"),
    (.typeOfExpression, "TypeOfExpression"), (.defaultExpression, "DefaultExpression"),
    (.simpleLambdaExpression, "SimpleLambdaExpression"),
    (.parenthesizedLambdaExpression, "ParenthesizedLambdaExpression"),
    (.throwExpression, "ThrowExpression")]

/-- The name of a kind. -/
def name (k : NodeKind) : String := (names.lookup k).getD ""

/-- The kind that has a name. -/
def ofName? (text : String) : Option NodeKind := (names.find? fun e => e.2 == text).map Prod.fst

/-- The node declares a type. -/
def isTypeDeclaration (k : NodeKind) : Bool :=
  ([.classDeclaration, .structDeclaration, .interfaceDeclaration, .recordDeclaration] :
    List NodeKind).contains k

/-- The node is a statement. -/
def isStatement (k : NodeKind) : Bool :=
  ([.block, .localDeclarationStatement, .localFunctionStatement, .expressionStatement,
    .ifStatement, .returnStatement, .whileStatement, .doStatement, .forStatement,
    .forEachStatement, .throwStatement, .breakStatement, .continueStatement,
    .yieldReturnStatement, .yieldBreakStatement, .emptyStatement, .tryStatement,
    .switchStatement, .usingStatement, .lockStatement] : List NodeKind).contains k

/-- The node can stand where a type is expected. -/
def isType (k : NodeKind) : Bool :=
  ([.predefinedType, .identifierName, .genericName, .qualifiedName, .arrayType, .nullableType,
    .tupleType] : List NodeKind).contains k

/-- The node is a lambda expression. -/
def isLambda (k : NodeKind) : Bool :=
  ([.simpleLambdaExpression, .parenthesizedLambdaExpression] : List NodeKind).contains k

/-- The node is a pattern. -/
def isPattern (k : NodeKind) : Bool :=
  ([.constantPattern, .declarationPattern, .typePattern, .notPattern] : List NodeKind).contains k

end NodeKind

end CodeMend
